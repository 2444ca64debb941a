import Rasterizer.Proofs.Painter.Visible

/-! # The band of a row

A painter looks for the band of a row from the band that it found last, which may lie above the row,
below it or nowhere near. What is found is the same from every place: the band begins at the first of
the rectangles over the row and is made of these (`Region.Term.bandOf?_run`). -/

namespace Rasterizer.Region

/-- The band of the row begins at that place: its rectangle reaches over the row, and none before it
does. -/
def BandBegins (a : Region) (y : Int) (start : Nat) : Prop :=
  (∃ r, a.rects[start]? = some r ∧ r.reaches y = true) ∧
    ∀ i < start, ∀ r, a.rects[i]? = some r → r.reaches y = false

theorem findIdx?_reaches_iff {a : Region} {y : Int} {start : Nat} :
    (a.rects.findIdx? fun r => r.reaches y) = some start ↔ a.BandBegins y start := by
  rw [List.findIdx?_eq_some_iff_getElem]
  constructor
  · intro hfind
    obtain ⟨hlt, hover, hbefore⟩ := hfind
    refine ⟨⟨_, List.getElem?_eq_getElem hlt, hover⟩, ?_⟩
    intro i hi r hr
    obtain ⟨_, rfl⟩ := List.getElem?_eq_some_iff.mp hr
    exact Bool.eq_false_iff.mpr (hbefore i hi)
  · intro hbegins
    obtain ⟨⟨r, hr, hover⟩, hbefore⟩ := hbegins
    obtain ⟨hlt, rfl⟩ := List.getElem?_eq_some_iff.mp hr
    refine ⟨hlt, hover, ?_⟩
    intro i hi
    exact Bool.eq_false_iff.mp (hbefore i hi _ (List.getElem?_eq_getElem (Nat.lt_trans hi hlt)))

/-- Two rectangles, the lower one moved beyond the last row. -/
def beyondBottom : Term := .offset (.rects [⟨0, 0, 10, 10⟩, ⟨20, 20, 30, 30⟩]) 0 2147483632

end Rasterizer.Region
