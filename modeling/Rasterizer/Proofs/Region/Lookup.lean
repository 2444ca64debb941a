import Rasterizer.Proofs.Region.Banded
import Rasterizer.Region.BandIndex

/-! # Band lookup

In a banded region tops and bottoms grow with the place in the list, so the walks up and
down from any place stop in the band of the row if there is one, and the lookup finds
what a search from the start would find (`bandOf?_eq`). The hint plays no part in it. -/

namespace Rasterizer

/-- The rectangle reaches over the row. -/
def Rect.reaches (rc : Rect) (y : Int) : Bool := rc.top ≤ y && y < rc.bottom

theorem Rect.reaches_iff {rc : Rect} {y : Int} : rc.reaches y = true ↔ rc.top ≤ y ∧ y < rc.bottom := by
  simp [reaches]

namespace Region

/-! ## Order by place -/

section Order

variable {a : Region} (h : a.Banded) {i j : Nat} {r s : Rect}
include h

theorem Banded.order (hij : i < j) (hi : a.rects[i]? = some r) (hj : a.rects[j]? = some s) :
    (r.top = s.top ∧ r.bottom = s.bottom) ∨ r.bottom ≤ s.top := by
  obtain ⟨hilt, rfl⟩ := List.getElem?_eq_some_iff.mp hi
  obtain ⟨hjlt, rfl⟩ := List.getElem?_eq_some_iff.mp hj
  have hband := List.pairwise_iff_getElem.mp h.band i j hilt hjlt hij
  have hstacked := List.pairwise_iff_getElem.mp h.stacked i j hilt hjlt hij
  by_cases htop : a.rects[i].top = a.rects[j].top
  · exact .inl ⟨htop, (hband htop).1⟩
  · exact .inr (hstacked htop)

theorem Banded.rows (hi : a.rects[i]? = some r) : r.top < r.bottom :=
  (h.nonempty r (List.mem_of_getElem? hi)).2

theorem Banded.top_le (hij : i ≤ j) (hi : a.rects[i]? = some r) (hj : a.rects[j]? = some s) :
    r.top ≤ s.top := by
  rcases Nat.lt_or_eq_of_le hij with hlt | rfl
  · have := h.rows hi
    rcases h.order hlt hi hj with ⟨htop, -⟩ | hapart <;> omega
  · rw [Option.some.inj (hi.symm.trans hj)]

theorem Banded.bottom_le (hij : i ≤ j) (hi : a.rects[i]? = some r) (hj : a.rects[j]? = some s) :
    r.bottom ≤ s.bottom := by
  rcases Nat.lt_or_eq_of_le hij with hlt | rfl
  · have := h.rows hj
    rcases h.order hlt hi hj with ⟨-, hbottom⟩ | hapart <;> omega
  · rw [Option.some.inj (hi.symm.trans hj)]

end Order

/-! ## Walks -/

theorem seekUp_spec (rects : List Rect) (y : Int) (i : Nat) :
    seekUp rects y i ≤ i ∧
    (∀ rc, rects[seekUp rects y i]? = some rc → seekUp rects y i = 0 ∨ rc.top ≤ y) ∧
    ∀ j rc, seekUp rects y i < j → j ≤ i → rects[j]? = some rc → y < rc.top := by
  induction i with
  | zero => exact ⟨Nat.le_refl 0, fun _ _ => .inl rfl, fun _ _ hj hj0 _ => absurd hj (Nat.not_lt.mpr hj0)⟩
  | succ i ih =>
    obtain ⟨hle, hstop, hpassed⟩ := ih
    simp only [seekUp]
    split
    next rc hrc =>
      split
      next habove =>
        refine ⟨by omega, hstop, ?_⟩
        intro j rc' hj hji hrc'
        rcases Nat.lt_or_eq_of_le hji with hlt | rfl
        · exact hpassed j rc' hj (by omega) hrc'
        · rwa [Option.some.inj (hrc'.symm.trans hrc)]
      next hreach =>
        refine ⟨Nat.le_refl _, fun rc' hrc' => .inr ?_, fun j _ hj hji => by omega⟩
        rw [Option.some.inj (hrc'.symm.trans hrc)]
        exact Int.not_lt.mp hreach
    next hnone =>
      refine ⟨Nat.le_refl _, ?_, fun j _ hj hji => by omega⟩
      intro rc' hrc'
      rw [hnone] at hrc'
      cases hrc'

theorem seekDown_some {rects : List Rect} {y : Int} {i k : Nat} (h : seekDown rects y i = some k) :
    i ≤ k ∧ (∃ rc, rects[k]? = some rc ∧ y < rc.bottom) ∧
    ∀ j rc, i ≤ j → j < k → rects[j]? = some rc → rc.bottom ≤ y := by
  obtain ⟨n, hn, rfl⟩ := Option.map_eq_some_iff.mp h
  obtain ⟨hlt, hfound, hbefore⟩ := List.findIdx?_eq_some_iff_getElem.mp hn
  refine ⟨Nat.le_add_left .., ⟨(rects.drop i)[n], ?_, of_decide_eq_true hfound⟩, ?_⟩
  · rw [Nat.add_comm, ← List.getElem?_drop]
    exact List.getElem?_eq_getElem hlt
  · intro j rc hij hjk hrc
    obtain ⟨d, rfl⟩ := Nat.exists_eq_add_of_le hij
    have hd : (rects.drop i)[d]? = some rc := by rw [List.getElem?_drop, hrc]
    obtain ⟨hdlt, rfl⟩ := List.getElem?_eq_some_iff.mp hd
    have := hbefore d (by omega)
    rw [decide_eq_true_eq] at this
    exact Int.not_lt.mp this

theorem seekDown_none {rects : List Rect} {y : Int} {i : Nat} (h : seekDown rects y i = none) {j : Nat}
    {rc : Rect} (hij : i ≤ j) (hrc : rects[j]? = some rc) : rc.bottom ≤ y := by
  have hall := List.findIdx?_eq_none_iff.mp (Option.map_eq_none_iff.mp h)
  obtain ⟨d, rfl⟩ := Nat.exists_eq_add_of_le hij
  rw [← List.getElem?_drop] at hrc
  exact Int.not_lt.mp (of_decide_eq_false (hall rc (List.mem_of_getElem? hrc)))

theorem bandStart_spec (rects : List Rect) (top : Int) (i : Nat) :
    bandStart rects top i ≤ i ∧
    (∀ j, bandStart rects top i ≤ j → j < i → ∃ rc, rects[j]? = some rc ∧ rc.top = top) ∧
    ∀ k rc, k + 1 = bandStart rects top i → rects[k]? = some rc → rc.top ≠ top := by
  induction i with
  | zero => exact ⟨Nat.le_refl 0, fun j _ hj => absurd hj (Nat.not_lt_zero j), fun k _ hk => nomatch hk⟩
  | succ i ih =>
    obtain ⟨hle, hsame, hother⟩ := ih
    simp only [bandStart]
    split
    next rc hrc =>
      split
      next htop =>
        refine ⟨by omega, ?_, hother⟩
        intro j hj hji
        rcases Nat.lt_or_eq_of_le (Nat.le_of_lt_succ hji) with hlt | rfl
        · exact hsame j hj hlt
        · exact ⟨rc, hrc, htop⟩
      next htop =>
        refine ⟨Nat.le_refl _, fun j hj hji => absurd hji (Nat.not_lt.mpr hj), ?_⟩
        intro k rc' hk hrc'
        rw [Nat.succ.inj hk] at hrc'
        rwa [Option.some.inj (hrc'.symm.trans hrc)]
    next hnone =>
      refine ⟨Nat.le_refl _, fun j hj hji => absurd hji (Nat.not_lt.mpr hj), ?_⟩
      intro k rc' hk hrc'
      rw [Nat.succ.inj hk, hnone] at hrc'
      cases hrc'

/-! ## The lookup -/

section Lookup

variable {a : Region} (h : a.Banded) {y : Int}
include h

/-- Two rectangles over one row lie in one band. -/
theorem Banded.reaches_of_le {i j : Nat} {r s : Rect} (hij : i ≤ j) (hi : a.rects[i]? = some r)
    (hj : a.rects[j]? = some s) (hbottom : y < r.bottom) (htop : s.top ≤ y) :
    r.reaches y = true ↔ s.reaches y = true := by
  rw [Rect.reaches_iff, Rect.reaches_iff]
  rcases Nat.lt_or_eq_of_le hij with hlt | rfl
  · rcases h.order hlt hi hj with hsame | hapart <;> omega
  · rw [Option.some.inj (hi.symm.trans hj)]

theorem Banded.seekUp_finds {near k : Nat} {start r : Rect} (hnear : a.rects[near]? = some start)
    (habove : y < start.top) (hk : a.rects[k]? = some r) (hr : r.reaches y = true) :
    ∃ rc, a.rects[seekUp a.rects y near]? = some rc ∧ rc.reaches y = true := by
  have hrow := Rect.reaches_iff.mp hr
  obtain ⟨hle, hstop, hpassed⟩ := seekUp_spec a.rects y near
  have hlt := (List.getElem?_eq_some_iff.mp hnear).1
  have hrc : a.rects[seekUp a.rects y near]? = some a.rects[seekUp a.rects y near] :=
    List.getElem?_eq_getElem (by omega)
  refine ⟨_, hrc, ?_⟩
  have hki : k ≤ seekUp a.rects y near := by
    by_contra hafter
    rcases Nat.le_total k near with hkn | hkn
    · have := hpassed k r (by omega) hkn hk
      omega
    · have := h.top_le hkn hnear hk
      omega
  have htop : a.rects[seekUp a.rects y near].top ≤ y := by
    rcases hstop _ hrc with hzero | htop
    · have := h.top_le (show seekUp a.rects y near ≤ k by omega) hrc hk
      omega
    · exact htop
  exact (h.reaches_of_le hki hk hrc hrow.2 htop).mp hr

theorem Banded.seekDown_finds {near k : Nat} {start r : Rect} (hnear : a.rects[near]? = some start)
    (hbelow : start.top ≤ y) (hk : a.rects[k]? = some r) (hr : r.reaches y = true) :
    ∃ i rc, seekDown a.rects y near = some i ∧ a.rects[i]? = some rc ∧ rc.reaches y = true := by
  -- a rectangle over the row that the walk down does not leave behind
  obtain ⟨k, r, hnk, hk, hr⟩ : ∃ k r, near ≤ k ∧ a.rects[k]? = some r ∧ r.reaches y = true := by
    rcases Nat.le_total near k with hnk | hkn
    · exact ⟨k, r, hnk, hk, hr⟩
    · have hrow := Rect.reaches_iff.mp hr
      exact ⟨near, start, Nat.le_refl _, hnear, (h.reaches_of_le hkn hk hnear hrow.2 hbelow).mp hr⟩
  have hrow := Rect.reaches_iff.mp hr
  cases hdown : seekDown a.rects y near with
  | none =>
    have := seekDown_none hdown hnk hk
    omega
  | some i =>
    obtain ⟨-, ⟨rc, hrc, hbottom⟩, hpassed⟩ := seekDown_some hdown
    have hik : i ≤ k := by
      by_contra hafter
      have := hpassed k r hnk (by omega) hk
      omega
    exact ⟨i, rc, rfl, hrc, (h.reaches_of_le hik hrc hk hbottom hrow.1).mpr hr⟩

/-- The walk from any place meets the band of the row. -/
theorem Banded.seek_finds {near k : Nat} {start r : Rect} (hnear : a.rects[near]? = some start)
    (hk : a.rects[k]? = some r) (hr : r.reaches y = true) :
    ∃ i rc, seek a.rects y near = some i ∧ a.rects[i]? = some rc ∧ rc.reaches y = true := by
  simp only [seek, hnear, Option.bind_eq_bind, Option.bind_some]
  split
  next habove =>
    obtain ⟨rc, hrc, hrow⟩ := h.seekUp_finds hnear habove hk hr
    exact ⟨_, rc, rfl, hrc, hrow⟩
  next hbelow => exact h.seekDown_finds hnear (Int.not_lt.mp hbelow) hk hr

/-- Going back from any rectangle of the band leads to its first. -/
theorem Banded.findIdx?_reaches {i : Nat} {rc : Rect} (hi : a.rects[i]? = some rc)
    (hrc : rc.reaches y = true) :
    a.rects.findIdx? (fun r => r.reaches y) = some (bandStart a.rects rc.top i) := by
  obtain ⟨hle, hsame, hother⟩ := bandStart_spec a.rects rc.top i
  have hrow := Rect.reaches_iff.mp hrc
  generalize hstart : bandStart a.rects rc.top i = start at hle hsame hother
  obtain ⟨first, hfirst, htop⟩ : ∃ first, a.rects[start]? = some first ∧ first.top = rc.top := by
    rcases Nat.lt_or_eq_of_le hle with hlt | rfl
    · exact hsame start (Nat.le_refl _) hlt
    · exact ⟨rc, hi, rfl⟩
  have hbottom : y < first.bottom := by
    have := h.rows hfirst
    rcases Nat.lt_or_eq_of_le hle with hlt | rfl
    · rcases h.order hlt hfirst hi with hsame | hapart <;> omega
    · rw [Option.some.inj (hfirst.symm.trans hi)]
      exact hrow.2
  obtain ⟨hlt, rfl⟩ := List.getElem?_eq_some_iff.mp hfirst
  refine List.findIdx?_eq_some_iff_getElem.mpr ⟨hlt, ?_, ?_⟩
  · exact (h.reaches_of_le hle hfirst hi hbottom hrow.1).mpr hrc
  · intro j hj
    -- the rectangle before the first lies in a higher band, and those before it too
    obtain ⟨k, rfl⟩ : ∃ k, start = k + 1 := ⟨start - 1, by omega⟩
    have hk : a.rects[k]? = some a.rects[k] := List.getElem?_eq_getElem (by omega)
    have hne := hother k _ rfl hk
    have hup : a.rects[k].bottom ≤ rc.top := by
      rcases h.order (Nat.lt_succ_self k) hk hfirst with hsame | hapart <;> omega
    have hj' : a.rects[j]? = some a.rects[j] := List.getElem?_eq_getElem (by omega)
    have := h.bottom_le (Nat.le_of_lt_succ hj) hj' hk
    rw [Rect.reaches_iff]
    omega

omit h in
/-- What the lookup returns is where the band of a rectangle over the row begins. -/
theorem bandOf?_reaches {hint : Option Nat} {start : Nat} (hfound : a.bandOf? y hint = some start) :
    ∃ (i : Nat) (rc : Rect), a.rects[i]? = some rc ∧ rc.reaches y = true ∧
      bandStart a.rects rc.top i = start := by
  unfold bandOf? at hfound
  obtain ⟨first, -, hfound⟩ := Option.bind_eq_some_iff.mp hfound
  obtain ⟨last, -, hfound⟩ := Option.bind_eq_some_iff.mp hfound
  split at hfound
  · cases hfound
  obtain ⟨i, -, hfound⟩ := Option.bind_eq_some_iff.mp hfound
  obtain ⟨rc, hrc, hfound⟩ := Option.bind_eq_some_iff.mp hfound
  split at hfound
  next => cases hfound
  next hover =>
    refine ⟨i, rc, hrc, ?_, Option.some.inj hfound⟩
    rw [Rect.reaches_iff]
    omega

omit h in
theorem hint_lt {n : Nat} (hn : 0 < n) (hint : Option Nat) : (hint.filter fun i => i < n).getD 0 < n := by
  cases hint with
  | none => simpa using hn
  | some i => by_cases hi : i < n <;> simp [Option.filter, hi, hn]

/-- Whatever the hint, the lookup finds the first rectangle that reaches over the row. -/
theorem Banded.bandOf?_eq (hint : Option Nat) :
    a.bandOf? y hint = a.rects.findIdx? fun r => r.reaches y := by
  cases hfind : a.rects.findIdx? fun r => r.reaches y with
  | none =>
    cases hfound : a.bandOf? y hint with
    | none => rfl
    | some start =>
      obtain ⟨i, rc, hrc, hover, -⟩ := bandOf?_reaches hfound
      have := List.findIdx?_eq_none_iff.mp hfind rc (List.mem_of_getElem? hrc)
      exact absurd hover (by simp [this])
  | some start =>
    obtain ⟨hlt, hover, -⟩ := List.findIdx?_eq_some_iff_getElem.mp hfind
    have hk : a.rects[start]? = some a.rects[start] := List.getElem?_eq_getElem hlt
    have hfirst : a.rects[0]? = some a.rects[0] := List.getElem?_eq_getElem (by omega)
    have hlast : a.rects[a.rects.length - 1]? = some a.rects[a.rects.length - 1] :=
      List.getElem?_eq_getElem (by omega)
    have hinside : ¬(y < a.rects[0].top ∨ a.rects[a.rects.length - 1].bottom ≤ y) := by
      have := h.top_le (Nat.zero_le _) hfirst hk
      have := h.bottom_le (by omega) hk hlast
      have := Rect.reaches_iff.mp hover
      omega
    have hnear := hint_lt (Nat.zero_lt_of_lt hlt) hint
    obtain ⟨i, rc, hseek, hrc, hrow⟩ := h.seek_finds (List.getElem?_eq_getElem hnear) hk hover
    have hin : ¬(y < rc.top ∨ rc.bottom ≤ y) := by
      have := Rect.reaches_iff.mp hrow
      omega
    simp only [bandOf?, List.head?_eq_getElem?, List.getLast?_eq_getElem?, hfirst, hlast, hseek, hrc,
      Option.bind_eq_bind, Option.bind_some, if_neg hinside, if_neg hin]
    rw [← h.findIdx?_reaches hrc hrow, hfind]

omit h in
theorem takeWhile_eq_filter {p : Rect → Bool} {rects : List Rect}
    (hp : rects.Pairwise fun r s => p s = true → p r = true) : rects.takeWhile p = rects.filter p := by
  induction rects with
  | nil => rfl
  | cons r rects ih =>
    obtain ⟨hr, hrects⟩ := List.pairwise_cons.mp hp
    rw [List.takeWhile_cons, List.filter_cons]
    split
    next => rw [ih hrects]
    next hnot => exact (List.filter_eq_nil_iff.mpr fun s hs hps => hnot (hr s hs hps)).symm

/-- The band that begins at the first rectangle over the row is all that reach over it. -/
theorem Banded.bandAt_eq {start : Nat} (hfind : (a.rects.findIdx? fun r => r.reaches y) = some start) :
    a.bandAt start = a.rowRects y := by
  obtain ⟨hlt, hover, hbefore⟩ := List.findIdx?_eq_some_iff_getElem.mp hfind
  have hfirst : a.rects[start]? = some a.rects[start] := List.getElem?_eq_getElem hlt
  rw [Rect.reaches_iff] at hover
  have hdrop : ∀ r ∈ a.rects.drop start, (r.top = a.rects[start].top ↔ r.reaches y = true) := by
    intro r hr
    obtain ⟨d, hd⟩ := List.mem_iff_getElem?.mp hr
    rw [List.getElem?_drop] at hd
    rw [Rect.reaches_iff]
    have := h.rows hd
    rcases Nat.eq_zero_or_pos d with rfl | hpos
    · rw [Option.some.inj (hd.symm.trans hfirst)]
      exact ⟨fun _ => hover, fun _ => rfl⟩
    · rcases h.order (by omega) hfirst hd with hsame | hapart <;> omega
  have hpairs : (a.rects.drop start).Pairwise fun r s =>
      decide (s.top = a.rects[start].top) = true → decide (r.top = a.rects[start].top) = true := by
    apply List.pairwise_iff_getElem.mpr
    intro i j hi hj hij hs
    rw [List.length_drop] at hi hj
    rw [List.getElem_drop, decide_eq_true_eq] at hs ⊢
    have hri : a.rects[start + i]? = some a.rects[start + i] := List.getElem?_eq_getElem (by omega)
    have hrj : a.rects[start + j]? = some a.rects[start + j] := List.getElem?_eq_getElem (by omega)
    have := h.top_le (Nat.le_add_right ..) hfirst hri
    have := h.top_le (by omega) hri hrj
    omega
  have htake : (a.rects.take start).filter (fun r => r.reaches y) = [] := by
    apply List.filter_eq_nil_iff.mpr
    intro r hr
    obtain ⟨j, hj, rfl⟩ := List.mem_take_iff_getElem.mp hr
    exact hbefore j (by omega)
  calc a.bandAt start = (a.rects.drop start).takeWhile fun r => r.top = a.rects[start].top := by
        simp only [bandAt, hfirst]
    _ = (a.rects.drop start).filter fun r => r.top = a.rects[start].top := takeWhile_eq_filter hpairs
    _ = (a.rects.drop start).filter fun r => r.reaches y :=
        List.filter_congr fun r hr => Bool.eq_iff_iff.mpr (by rw [decide_eq_true_eq, hdrop r hr])
    _ = a.rects.filter fun r => r.reaches y := by
        rw [← List.nil_append ((a.rects.drop start).filter _), ← htake, ← List.filter_append,
          List.take_append_drop]

/-- The band found from any hint is all that reaches over the row; where none is found nothing does. -/
theorem Banded.bandAt_bandOf? (hint : Option Nat) :
    (a.bandOf? y hint).elim [] a.bandAt = a.rowRects y := by
  rw [h.bandOf?_eq]
  cases hfind : a.rects.findIdx? fun r => r.reaches y with
  | none =>
    refine (List.filter_eq_nil_iff.mpr ?_).symm
    intro r hr
    exact Bool.eq_false_iff.mp (List.findIdx?_eq_none_iff.mp hfind r hr)
  | some start => exact h.bandAt_eq hfind

omit h in
theorem mem_rowRects {r : Rect} : r ∈ a.rowRects y ↔ r ∈ a.rects ∧ r.reaches y = true :=
  List.mem_filter

omit h in
theorem mem_of_mem_bandAt {start : Nat} {r : Rect} (hr : r ∈ a.bandAt start) : r ∈ a.rects := by
  rw [bandAt] at hr
  split at hr
  · cases hr
  · exact List.mem_of_mem_drop ((List.takeWhile_prefix _).subset hr)

omit h in
/-- What the lookup finds is in a rectangle, whatever the list. -/
theorem anyContains_of_contains {x : Int} (hx : a.contains x y = true) : anyContains a.rects x y = true := by
  rw [contains] at hx
  split at hx
  next =>
    obtain ⟨r, hr, hin⟩ := List.any_eq_true.mp hx
    exact anyContains_iff.mpr ⟨r, mem_of_mem_bandAt hr, hin⟩
  next => cases hx

/-- Membership, looked up in one band, is membership in any of the rectangles. -/
theorem Banded.contains_eq (x : Int) : a.contains x y = anyContains a.rects x y := by
  rw [Bool.eq_iff_iff, anyContains_iff]
  simp only [contains, h.bandOf?_eq]
  cases hfind : a.rects.findIdx? fun r => r.reaches y with
  | none =>
    refine ⟨fun hx => absurd hx Bool.false_ne_true, ?_⟩
    rintro ⟨r, hr, hx⟩
    obtain ⟨-, -, hrow⟩ := Rect.contains_iff.mp hx
    have := List.findIdx?_eq_none_iff.mp hfind r hr
    rw [Rect.reaches_iff.mpr hrow] at this
    cases this
  | some start =>
    simp only [h.bandAt_eq hfind, List.any_eq_true, mem_rowRects]
    constructor
    · rintro ⟨r, ⟨hr, -⟩, hx⟩
      exact ⟨r, hr, hx⟩
    · rintro ⟨r, hr, hx⟩
      obtain ⟨-, -, hrow⟩ := Rect.contains_iff.mp hx
      exact ⟨r, ⟨hr, Rect.reaches_iff.mpr hrow⟩, hx⟩

end Lookup

end Region

end Rasterizer
