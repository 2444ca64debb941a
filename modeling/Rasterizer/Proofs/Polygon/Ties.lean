import Rasterizer.Proofs.Polygon.Held

/-! # Listing the edges of a polygon in another order

The scan takes up the edges that start on a row one after another, and each goes before those it ties with. So the
order in which the edges are listed shows only where edges tie. When edges that tie on a row cover the same columns
there, and are ordered alike with edges that start on it (`TiesAlike`), lists of the same edges are scanned alike: row
by row the edges held cover the same columns from left to right (`ShownAlike.cover_activeOn`, `shownAlike_nextRow`),
and these are all that the runs are made of (`evenOddRuns_perm`). -/

namespace Rasterizer.Polygon

namespace Edge

/-- What an edge covers on a row: where it begins and how far it spreads. -/
def cover (e : Edge) : Int × Int := (e.x, e.spread)

/-- What an edge covers on a row and how the edges that start there are ordered with it. -/
def look (e : Edge) : (Int × Int) × Int := (e.cover, e.startKey)

end Edge

/-- Edges that tie on a row cover the same columns there. Those that come from above also stand alike to the edges that
start on the row, if there are any. -/
structure TiesAlike (es : List Edge) : Prop where
  starting : ∀ a ∈ es, ∀ b ∈ es, a.top = b.top → a.startKey = b.startKey → a.cover = b.cover
  straddling : ∀ a ∈ es, ∀ y ∈ irange (a.top + 1) a.bottom, ∀ b ∈ es, b.Straddles y →
    (a.onRow y).rowKey = (b.onRow y).rowKey →
      (a.onRow y).cover = (b.onRow y).cover ∧ ((∃ e ∈ es, e.top = y) → (a.onRow y).look = (b.onRow y).look)

instance (es : List Edge) : Decidable (TiesAlike es) :=
  @decidable_of_iff _ (_ ∧ _) ⟨fun h => ⟨h.1, h.2⟩, fun h => ⟨h.starting, h.straddling⟩⟩
    (@instDecidableAnd _ _ inferInstance inferInstance)

/-! ## One row -/

section Row

variable {active active' : List Edge}

/-- An edge goes to its place by the looks alone. -/
theorem map_look_insertEdge (active : List Edge) (e : Edge) :
    (insertEdge active e).map Edge.look =
      (active.map Edge.look).orderedInsert (fun a b => a.2 ≤ b.2) e.look := by
  rw [insertEdge_eq_orderedInsert]
  exact List.map_orderedInsert _ _ Edge.look active e (fun _ _ => Iff.rfl) fun _ _ => Iff.rfl

theorem map_look_foldl (starting active : List Edge) :
    (activeOn active starting).map Edge.look =
      (starting.map Edge.look).foldl (fun ls l => ls.orderedInsert (fun a b => a.2 ≤ b.2) l)
        (active.map Edge.look) := by
  induction starting generalizing active with
  | nil => rfl
  | cons e es ih =>
    rw [List.map_cons, List.foldl_cons, ← map_look_insertEdge]
    exact ih _

/-- Edges whose ties are alike may be taken up in any order. -/
theorem map_look_activeOn {starting starting' : List Edge} (hperm : starting.Perm starting')
    (hties : ∀ a ∈ starting, ∀ b ∈ starting, a.startKey = b.startKey → a.cover = b.cover)
    (hlook : active.map Edge.look = active'.map Edge.look) :
    (activeOn active starting).map Edge.look = (activeOn active' starting').map Edge.look := by
  rw [map_look_foldl, map_look_foldl, hlook]
  refine (hperm.map Edge.look).foldl_eq' (fun k hk l hl ls => ?_) _
  obtain ⟨a, ha, rfl⟩ := List.mem_map.mp hk
  obtain ⟨b, hb, rfl⟩ := List.mem_map.mp hl
  have happart : a.look = b.look ∨ a.look.2 ≠ b.look.2 := by
    by_cases h : a.startKey = b.startKey
    · exact .inl (Prod.ext (hties a ha b hb h) h)
    · exact .inr h
  exact orderedInsert_comm happart ls

/-- Edges in order from left to right show the same, whichever of those that tie comes first. -/
theorem map_eq_of_sorted {α : Type} {f : Edge → α} (hperm : active.Perm active')
    (hsorted : active.Pairwise fun a b => a.rowKey ≤ b.rowKey)
    (hsorted' : active'.Pairwise fun a b => a.rowKey ≤ b.rowKey)
    (hties : ∀ a ∈ active, ∀ b ∈ active, a.rowKey = b.rowKey → f a = f b) :
    active.map f = active'.map f := by
  let keyed (e : Edge) : Int × α := (e.rowKey, f e)
  have heq : active.map keyed = active'.map keyed := by
    have hpairwise : ∀ {es : List Edge}, es.Pairwise (fun a b => a.rowKey ≤ b.rowKey) →
        (es.map keyed).Pairwise fun k l => k.1 ≤ l.1 := fun h => List.pairwise_map.mpr h
    refine (hperm.map keyed).eq_of_pairwise (fun k l hk hl hkl hlk => ?_) (hpairwise hsorted) (hpairwise hsorted')
    obtain ⟨a, ha, rfl⟩ := List.mem_map.mp hk
    obtain ⟨b, hb, rfl⟩ := List.mem_map.mp hl
    have hkeys : a.rowKey = b.rowKey := Int.le_antisymm hkl hlk
    exact Prod.ext hkeys (hties a ha b (hperm.mem_iff.mpr hb) hkeys)
  have hsnd := congrArg (List.map Prod.snd) heq
  rwa [List.map_map, List.map_map] at hsnd

theorem map_cover_of_look (h : active.map Edge.look = active'.map Edge.look) :
    active.map Edge.cover = active'.map Edge.cover := by
  have hfst := congrArg (List.map Prod.fst) h
  rwa [List.map_map, List.map_map] at hfst

/-- The runs of a row show the covered columns alone. -/
theorem pairRuns_eq_of_cover (y : Int) : ∀ {active active' : List Edge},
    active.map Edge.cover = active'.map Edge.cover → pairRuns y active = pairRuns y active'
  | [], _, h => by rw [List.map_eq_nil_iff.mp h.symm]
  | [a], _, h => by
    obtain ⟨b, rest, rfl, -, hrest⟩ := List.map_eq_cons_iff.mp h.symm
    rw [List.map_eq_nil_iff.mp hrest]
    rfl
  | a :: b :: rest, _, h => by
    obtain ⟨a', _, rfl, ha, h⟩ := List.map_eq_cons_iff.mp h.symm
    obtain ⟨b', rest', rfl, hb, hrest⟩ := List.map_eq_cons_iff.mp h
    simp only [Edge.cover, Prod.mk.injEq] at ha hb
    rw [pairRuns, pairRuns, ha.1, hb.1, hb.2, pairRuns_eq_of_cover y hrest.symm]

end Row

/-! ## All rows -/

/-- Two lists of edges that come to the row `y` from above show the same there. -/
structure ShownAlike (es : List Edge) (y : Int) (active active' : List Edge) : Prop where
  cover : active.map Edge.cover = active'.map Edge.cover
  look : (∃ e ∈ es, e.top = y) → active.map Edge.look = active'.map Edge.look

section Rows

variable {es es' active active' : List Edge}

/-- What holds of the edges on the next row holds of those that straddle it. -/
theorem forall_mem_nextRow {p : Edge → Prop} (hes : ∀ e ∈ es, e.top ≤ e.bottom) {y : Int}
    (hactive : active.Perm ((es.filter (Edge.Straddles y)).map (Edge.onRow y)))
    (h : ∀ e ∈ es, e.Straddles (y + 1) → p (e.onRow (y + 1))) :
    ∀ e ∈ nextRow y (activeOn active (starting es y)), p e := by
  intro d hd
  obtain ⟨e, he, rfl⟩ := List.mem_map.mp ((perm_next (perm_now hes hactive)).mem_iff.mp hd)
  obtain ⟨he, hstraddles⟩ := List.mem_filter.mp he
  exact h e he (of_decide_eq_true hstraddles)

/-- Taking up the edges that start on the row, in either order, leaves the covered columns the same. -/
theorem ShownAlike.cover_activeOn {y : Int} (h : ShownAlike es y active active') (hperm : es.Perm es')
    (hties : TiesAlike es) :
    (activeOn active (starting es y)).map Edge.cover = (activeOn active' (starting es' y)).map Edge.cover := by
  by_cases hstarts : ∃ e ∈ es, e.top = y
  · refine map_cover_of_look (map_look_activeOn (hperm.filter _) (fun a ha b hb => ?_) (h.look hstarts))
    obtain ⟨ha, hatop⟩ := List.mem_filter.mp ha
    obtain ⟨hb, hbtop⟩ := List.mem_filter.mp hb
    exact hties.starting a ha b hb ((of_decide_eq_true hatop).trans (of_decide_eq_true hbtop).symm)
  · have hnone : starting es y = [] :=
      List.filter_eq_nil_iff.mpr fun e he htop => hstarts ⟨e, he, of_decide_eq_true htop⟩
    have hnone' : starting es' y = [] := List.perm_nil.mp (hnone ▸ hperm.symm.filter _)
    rw [hnone, hnone']
    exact h.cover

/-- The edges that go on show the same on the next row, whatever they showed before. -/
theorem shownAlike_nextRow (hperm : es.Perm es') (hes : ∀ e ∈ es, e.top ≤ e.bottom) (hties : TiesAlike es) {y : Int}
    (hactive : active.Perm ((es.filter (Edge.Straddles y)).map (Edge.onRow y)))
    (hactive' : active'.Perm ((es'.filter (Edge.Straddles y)).map (Edge.onRow y))) :
    ShownAlike es (y + 1) (nextRow y (activeOn active (starting es y)))
      (nextRow y (activeOn active' (starting es' y))) := by
  have hnext := perm_next (perm_now hes hactive)
  have hnext' := perm_next (perm_now (fun e he => hes e (hperm.mem_iff.mpr he)) hactive')
  have hagree {α : Type} {f : Edge → α} := map_eq_of_sorted (f := f)
    (hnext.trans (((hperm.filter _).map _).trans hnext'.symm)) (sorted_nextRow y _) (sorted_nextRow y _)
  have htied : ∀ a ∈ nextRow y (activeOn active (starting es y)),
      ∀ b ∈ nextRow y (activeOn active (starting es y)), a.rowKey = b.rowKey →
        a.cover = b.cover ∧ ((∃ e ∈ es, e.top = y + 1) → a.look = b.look) :=
    forall_mem_nextRow hes hactive fun a ha haon => forall_mem_nextRow hes hactive fun b hb hbon =>
      hties.straddling a ha (y + 1) (mem_irange.mpr ⟨haon.1, haon.2⟩) b hb hbon
  exact ⟨hagree fun a ha b hb h => (htied a ha b hb h).1,
    fun hstarts => hagree fun a ha b hb h => (htied a ha b hb h).2 hstarts⟩

theorem sweep_perm (hperm : es.Perm es') (hes : ∀ e ∈ es, e.top ≤ e.bottom) (hties : TiesAlike es) {lo hi : Int}
    (hactive : active.Perm ((es.filter (Edge.Straddles lo)).map (Edge.onRow lo)))
    (hactive' : active'.Perm ((es'.filter (Edge.Straddles lo)).map (Edge.onRow lo)))
    (h : ShownAlike es lo active active') :
    sweep (starting es) (irange lo hi) active = sweep (starting es') (irange lo hi) active' := by
  have hes' : ∀ e ∈ es', e.top ≤ e.bottom := fun e he => hes e (hperm.mem_iff.mpr he)
  obtain ⟨n, hn⟩ : ∃ n : Nat, hi + 1 - lo ≤ n := ⟨(hi + 1 - lo).toNat, by omega⟩
  induction n generalizing lo active active' with
  | zero =>
    rw [irange_eq_nil (by omega)]
    rfl
  | succ n ih =>
    by_cases hempty : hi < lo
    · rw [irange_eq_nil hempty]
      rfl
    · rw [irange_cons (by omega), sweep, sweep, pairRuns_eq_of_cover lo (h.cover_activeOn hperm hties)]
      exact congrArg _ (ih (perm_next (perm_now hes hactive)) (perm_next (perm_now hes' hactive'))
        (shownAlike_nextRow hperm hes hties hactive hactive') (by omega))

theorem topmost_perm (hperm : es.Perm es') : topmost es = topmost es' := by
  match es, es', hperm with
  | [], _, hperm => rw [hperm.nil_eq]
  | _ :: _, [], hperm => cases hperm.eq_nil
  | _ :: _, _ :: _, hperm => exact least_congr fun x => (hperm.map Edge.top).mem_iff

theorem lowest_perm (hperm : es.Perm es') : lowest es = lowest es' := by
  match es, es', hperm with
  | [], _, hperm => rw [hperm.nil_eq]
  | _ :: _, [], hperm => cases hperm.eq_nil
  | _ :: _, _ :: _, hperm => exact greatest_congr fun x => (hperm.map Edge.bottom).mem_iff

end Rows

/-- A scan that begins above all edges takes them up as they are. -/
theorem evenOddRuns_eq_sweep_of_le {pts : List Point} (hpts : 3 ≤ pts.length) {rows : Option (Int × Int)}
    (hfirst : ∀ e ∈ edges pts, firstRow (edges pts) rows ≤ e.top) :
    evenOddRuns pts rows =
      sweep (starting (edges pts)) (irange (firstRow (edges pts) rows) (lastRow (edges pts) rows)) [] := by
  rw [evenOddRuns_eq, evenOddHeld_eq_sweepHeld hpts, ← sweep_eq]
  refine sweep_congr (fun y _ => ?_) []
  rw [startingFrom, entering_of_le (fun e => top_le_bottom) hfirst]

/-- Lists of the same edges are scanned alike from above all edges, if ties are alike. -/
theorem evenOddRuns_perm {pts pts' : List Point} (hpts : 3 ≤ pts.length) (hpts' : 3 ≤ pts'.length)
    (hperm : (edges pts).Perm (edges pts')) (hties : TiesAlike (edges pts)) {rows : Option (Int × Int)}
    (hfirst : ∀ e ∈ edges pts, firstRow (edges pts) rows ≤ e.top) :
    evenOddRuns pts rows = evenOddRuns pts' rows := by
  have hfirst' : ∀ e ∈ edges pts', firstRow (edges pts) rows ≤ e.top := fun e he => hfirst e (hperm.mem_iff.mpr he)
  have hrows : firstRow (edges pts') rows = firstRow (edges pts) rows := by
    rcases rows with _ | ⟨t, b⟩ <;> simp only [firstRow, topmost_perm hperm]
  have hlast : lastRow (edges pts') rows = lastRow (edges pts) rows := by
    rcases rows with _ | ⟨t, b⟩ <;> simp only [lastRow, lowest_perm hperm]
  rw [evenOddRuns_eq_sweep_of_le hpts hfirst, evenOddRuns_eq_sweep_of_le hpts' (hrows ▸ hfirst'), hrows, hlast]
  exact sweep_perm hperm (fun e => top_le_bottom) hties (perm_nil_straddling hfirst) (perm_nil_straddling hfirst')
    ⟨rfl, fun _ => rfl⟩

end Rasterizer.Polygon
