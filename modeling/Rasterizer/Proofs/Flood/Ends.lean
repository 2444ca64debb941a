import Rasterizer.Proofs.Flood.Watched

/-! # A fill ends

Against any target. The loops of a fill with no bound on their length (`Watched`) end, and as the bounded
ones do: the walks along links because links lead forward, a look along a row because each step of it
goes to the right, and the passes because of the visits left (`passes_induct`). Each run that is filled
leaves fewer open pixels, so the open pixels pay for the runs. -/

namespace Rasterizer.Flood.Watched

variable {σ α : Type} {t : FloodTarget σ} {dst : Rect} {s : State σ} {x y : Int} {c n : Nat}

/-- The program ends with the state and the answer of the pair, and each run it fills is paid for by a
pixel that is not open any more. -/
def EndsPaid (dst : Rect) (m : Watched σ α) (s : State σ) (r : State σ × α) : Prop :=
  Ends dst (openPixels dst s).card m s r.2 r.1 (openPixels dst r.1).card

/-! ## Following links -/

section Links

variable (hs : Linked dst s.table)
include hs

theorem ends_lastFrom (bound : Nat) (hc : c < s.table.size) (hbound : s.table.size ≤ c + bound) :
    Ends dst n (lastFrom c) s (Flood.lastFrom s.table bound c) s n := by
  induction bound generalizing c with
  | zero => omega
  | succ bound ih =>
    have hg : s.table[c]? = some s.table[c] := Array.getElem?_eq_getElem hc
    simp only [Flood.lastFrom, hg]
    split
    next hlast =>
      refine Ends.last ((ends_entry hg).bind ?_)
      simpa only [if_pos hlast] using ends_pure s _
    next hnext =>
      obtain ⟨hlt, g', hg', -⟩ := hs.forward c _ hg hnext
      refine Ends.next ((ends_entry hg).bind ?_) (ih (Array.getElem?_eq_some_iff.mp hg').1 (by omega))
      simpa only [if_neg hnext] using ends_pure s _

theorem ends_heldFrom (bound : Nat) (hc : c < s.table.size) (hbound : s.table.size ≤ c + bound) :
    Ends dst n (heldFrom x c) s (heldFrom? s.table x bound c) s n := by
  induction bound generalizing c with
  | zero => omega
  | succ bound ih =>
    have hg : s.table[c]? = some s.table[c] := Array.getElem?_eq_getElem hc
    simp only [heldFrom?, hg]
    split
    next hx =>
      refine Ends.last ((ends_entry hg).bind ?_)
      simpa only [if_pos hx] using ends_pure s _
    next hx =>
      split
      next hlast =>
        refine Ends.last ((ends_entry hg).bind ?_)
        simpa only [if_neg hx, if_pos hlast] using ends_pure s _
      next hnext =>
        obtain ⟨hlt, g', hg', -⟩ := hs.forward c _ hg hnext
        refine Ends.next ((ends_entry hg).bind ?_)
          (ih (Array.getElem?_eq_some_iff.mp hg').1 (by omega))
        simpa only [if_neg hx, if_neg hnext] using ends_pure s _

theorem ends_record {seg : Segment} (hy : dst.top ≤ seg.y ∧ seg.y < dst.bottom) :
    Ends dst n (record dst seg) s () (s.record dst seg) n := by
  obtain ⟨hrow, -, g, hg⟩ := exists_head hs hy
  have hlt : rowIndex dst seg.y < s.table.size := hrow.trans_le hs.size
  refine (ends_entry hg).bind ?_
  simp only [State.record, hg, Option.any_some]
  split
  · exact (ends_lastFrom hs s.table.size hlt (Nat.le_add_left ..)).bind (ends_edit s _)
  · exact ends_edit s _

end Links

/-! ## One run -/

section Row

variable (hy : dst.top ≤ y ∧ y < dst.bottom)
include hy

theorem ends_reachLeft (bound : Nat) (hx : x = dst.left + bound) (hr : x < dst.right) :
    Ends dst n (reachLeft t dst y x) s
      (Flood.reachLeft (fun x => t.isCandidate s.target x y) bound x) s n := by
  induction bound generalizing x with
  | zero =>
    refine Ends.last ?_
    rw [if_neg (by omega)]
    exact ends_pure s _
  | succ bound ih =>
    have hin : dst.contains (x - 1) y = true :=
      Rect.contains_iff.mpr ⟨by omega, by omega, hy.1, hy.2⟩
    have hgo : dst.left ≤ x - 1 := by omega
    simp only [Flood.reachLeft]
    split
    next hcand =>
      refine Ends.next ?_ (ih (by omega) (by omega))
      rw [if_pos hgo]
      refine (ends_look hin s).bind ?_
      simpa only [if_pos hcand] using ends_pure s _
    next hcand =>
      refine Ends.last ?_
      rw [if_pos hgo]
      refine (ends_look hin s).bind ?_
      simpa only [if_neg hcand] using ends_pure s _

theorem ends_reachRight (bound : Nat) (hx : x + 1 + bound = dst.right) (hl : dst.left ≤ x) :
    Ends dst n (reachRight t dst y x) s
      (Flood.reachRight (fun x => t.isCandidate s.target x y) bound x) s n := by
  induction bound generalizing x with
  | zero =>
    refine Ends.last ?_
    rw [if_neg (by omega)]
    exact ends_pure s _
  | succ bound ih =>
    have hin : dst.contains (x + 1) y = true :=
      Rect.contains_iff.mpr ⟨by omega, by omega, hy.1, hy.2⟩
    have hgo : x + 1 < dst.right := by omega
    simp only [Flood.reachRight]
    split
    next hcand =>
      refine Ends.next ?_ (ih (by omega) (by omega))
      rw [if_pos hgo]
      refine (ends_look hin s).bind ?_
      simpa only [if_pos hcand] using ends_pure s _
    next hcand =>
      refine Ends.last ?_
      rw [if_pos hgo]
      refine (ends_look hin s).bind ?_
      simpa only [if_neg hcand] using ends_pure s _

theorem within_runThrough (hx : dst.left ≤ x ∧ x < dst.right) :
    (Call.fill (runThrough t dst s x y)).Within dst := by
  obtain ⟨hl, hr⟩ := runThrough_within (t := t) (s := s) (y := y) hx.1 hx.2
  obtain ⟨hle, hge⟩ := le_runThrough t dst s x y
  exact ⟨hle.trans hge, Rect.contains_iff.mpr ⟨hl, by omega, hy.1, hy.2⟩,
    Rect.contains_iff.mpr ⟨by omega, hr, hy.1, hy.2⟩⟩

/-- A run through an open pixel is paid for by that pixel. -/
theorem ends_fillRun (hs : Linked dst s.table) (hx : dst.left ≤ x ∧ x < dst.right)
    (hopen : ¬ s.Holds ⟨x, y⟩) :
    EndsPaid dst (fillRun t dst x y) s (Flood.fillRun t dst s x y) := by
  have hin : dst.contains x y = true := Rect.contains_iff.mpr ⟨hx.1, hx.2, hy.1, hy.2⟩
  refine (ends_look hin s).bind ?_
  rw [fillRun_eq]
  split
  next hcand =>
    -- filling the target does not touch the table
    let s₁ : State σ := { s with target := t.fill s.target (runThrough t dst s x y) }
    have hpaid : (openPixels dst (s₁.record dst (entryOf dst (runThrough t dst s x y)))).card + 1 ≤
        (openPixels dst s).card :=
      card_openPixels_record (s := s₁) hs hy hx (le_runThrough t dst s x y) hopen
    refine Ends.mono ?_ hpaid le_rfl
    refine (ends_reachLeft hy (x - dst.left).toNat (by omega) hx.2).bind ?_
    refine (ends_reachRight hy (dst.right - 1 - x).toNat (by omega) hx.1).bind ?_
    refine (ends_paint (within_runThrough hy hx) s).bind ?_
    exact (ends_record (s := s₁) hs hy).bind (ends_pure _ _)
  next hcand => exact ends_pure s _

/-- Each step of a look goes to the right. -/
theorem ends_lookAlong {right : Int} (hr : right < dst.right) (bound : Nat) (found : Bool)
    (hs : Tidy dst s) (hl : dst.left ≤ x) (hbound : right - x < bound) :
    EndsPaid dst (lookAlong t dst y right (x, found)) s
      (Flood.lookAlong t dst y right bound s x found) := by
  induction bound generalizing s x found with
  | zero =>
    refine Ends.last ?_
    rw [if_pos (show right < x by omega)]
    exact ends_pure s _
  | succ bound ih =>
    simp only [Flood.lookAlong]
    split
    next hdone =>
      refine Ends.last ?_
      rw [if_pos hdone]
      exact ends_pure s _
    next hmore =>
      have hheld : ∀ n, Ends dst n (heldFrom x (rowIndex dst y)) s (s.filledTo? dst x y) s n := fun n =>
        ends_heldFrom hs.linked s.table.size ((exists_head hs.linked hy).1.trans_le hs.linked.size)
          (Nat.le_add_left ..)
      split
      next r hfilled =>
        have := le_of_filledTo? hfilled
        rw [hfilled] at hheld
        refine Ends.next ?_ (ih found hs (by omega) (by omega))
        rw [if_neg hmore]
        exact (hheld _).bind (ends_pure s _)
      next hnone =>
        have hx : dst.left ≤ x ∧ x < dst.right := ⟨hl, by omega⟩
        have hopen := (filledTo?_eq_none_iff hs.linked hy).mp hnone
        have hnext := lt_fillRun_next t dst s x y
        rw [hnone] at hheld
        refine Ends.next ?_ (ih true (tidy_fillRun t hs hx hy hopen).1 (by omega) (by omega))
        rw [if_neg hmore]
        exact (hheld _).bind ((ends_fillRun hy hs.linked hx hopen).bind (ends_pure _ _))

end Row

/-! ## The passes -/

theorem ends_visit (hs : Tidy dst s) (side : Side) (hc : c < s.table.size) :
    EndsPaid dst (visit t dst side c) s (Flood.visit t dst side s c) := by
  have hg : s.table[c]? = some s.table[c] := Array.getElem?_eq_getElem hc
  refine (ends_entry hg).bind ?_
  simp only [Flood.visit, hg]
  split
  next htodo =>
    obtain ⟨hcols, hrow⟩ := hs.todo c _ side hg htodo
    have hlook := ends_lookAlong (t := t) hrow hcols.2
      (s.table[c].right - s.table[c].left + 1).toNat false (tidy_mark hs side c) hcols.1 (by omega)
    rw [EndsPaid, openPixels_mark hs.linked] at hlook
    exact (ends_edit s _).bind hlook
  next => exact ends_pure s _

theorem ends_passes (bound : Nat) {quiet : Bool} (hs : Tidy dst s) (hc : c ≤ maxEntries dst)
    (hbound : visitsLeft dst s c quiet ≤ bound) :
    Ends dst (openPixels dst s).card (passes t dst (c, quiet)) s ()
      (Flood.passes t dst bound s c quiet) 0 := by
  refine passes_induct t dst
    (P := fun s c quiet s' => Ends dst (openPixels dst s).card (passes t dst (c, quiet)) s () s' 0)
    ?_ ?_ ?_ bound hs hc hbound
  · intro s c quiet s' hs hlt hnext
    refine Ends.next ((ends_size s).bind ?_) hnext
    rw [if_pos hlt]
    refine (ends_visit hs .below hlt).bind ?_
    refine (ends_visit (tidy_visit t hs .below c).1 .above
      (hlt.trans_le (size_le_visit t dst .below s c))).bind ?_
    exact ends_pure _ _
  · intro s c s' hle hnext
    refine Ends.next ((ends_size s).bind ?_) hnext
    rw [if_neg (Nat.not_lt.mpr hle)]
    exact ends_pure s _
  · intro s c hle
    refine Ends.last ((ends_size s).bind ?_)
    rw [if_neg (Nat.not_lt.mpr hle)]
    exact (ends_pure s _).mono le_rfl (Nat.zero_le _)

/-! ## A whole fill -/

/-- Every pixel stays a candidate. -/
def blankTarget : FloodTarget Unit := ⟨fun _ _ _ => true, fun s _ => s⟩

end Rasterizer.Flood.Watched
