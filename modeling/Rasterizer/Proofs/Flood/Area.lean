import Rasterizer.Flood
import Mathlib.Order.Basic
import Mathlib.Tactic.ByContra

/-! # What a fill is to do

The pixels that a fill may reach are the candidates of the rectangle, and the area is
what hangs together with the first pixel among them over shared edges. Its maximal
stretches on the rows are the runs to be filled. A target that keeps a log tells which
runs a fill has asked for (`calls`). -/

namespace Rasterizer

variable {σ : Type}

/-- Filling a run changes at most whether the pixels of that run are candidates. Any of them may
stay one. -/
def FloodTarget.Local (t : FloodTarget σ) : Prop :=
  ∀ s r p, ¬ r.Covers p → t.isCandidate (t.fill s r) p.x p.y = t.isCandidate s p.x p.y

/-- The target that also writes down the runs it is asked to fill. -/
def FloodTarget.logged (t : FloodTarget σ) : FloodTarget (σ × List Run) where
  isCandidate s := t.isCandidate s.1
  fill s r := (t.fill s.1 r, s.2 ++ [r])

namespace Flood

/-- The runs that a fill asks its target to fill, in order. -/
def calls (t : FloodTarget σ) (target : σ) (dst : Rect) (x y : Int) : List Run :=
  (fill t.logged (target, []) dst x y).2

def Inside (candidate : Int → Int → Bool) (dst : Rect) (p : Point) : Prop :=
  dst.contains p.x p.y = true ∧ candidate p.x p.y = true

/-- The two pixels share an edge. -/
def Adjacent (p q : Point) : Prop :=
  (q.y = p.y ∧ (q.x = p.x - 1 ∨ q.x = p.x + 1)) ∨ (q.x = p.x ∧ (q.y = p.y - 1 ∨ q.y = p.y + 1))

/-- The pixels connected with `start` over shared edges among the candidates of the rectangle. -/
inductive Area (candidate : Int → Int → Bool) (dst : Rect) (start : Point) : Point → Prop
  | start : Inside candidate dst start → Area candidate dst start start
  | step {p q : Point} : Area candidate dst start p → Adjacent p q → Inside candidate dst q →
      Area candidate dst start q

/-- A run of pixels that all belong to the set and that can be made no longer. -/
structure MaximalRun (S : Point → Prop) (r : Run) : Prop where
  nonempty : r.x1 ≤ r.x2
  mem : ∀ p, r.Covers p → S p
  left : ¬ S ⟨r.x1 - 1, r.y⟩
  right : ¬ S ⟨r.x2 + 1, r.y⟩

variable {candidate : Int → Int → Bool} {dst : Rect} {start p q : Point}

theorem Area.inside (h : Area candidate dst start p) : Inside candidate dst p := by
  cases h with
  | start h => exact h
  | step _ _ h => exact h

/-- Where the first pixel is no candidate of the rectangle there is no area. -/
theorem Area.inside_start (h : Area candidate dst start p) : Inside candidate dst start := by
  induction h with
  | start h => exact h
  | step _ _ _ ih => exact ih

/-- Among more candidates, or in a larger rectangle, the area is larger. -/
theorem Area.mono {candidate' : Int → Int → Bool} {dst' : Rect}
    (hmono : ∀ p, Inside candidate dst p → Inside candidate' dst' p) (h : Area candidate dst start p) :
    Area candidate' dst' start p := by
  induction h with
  | start h => exact .start (hmono _ h)
  | step _ hadj h ih => exact .step ih hadj (hmono _ h)

theorem Inside.rows (h : Inside candidate dst p) : dst.top ≤ p.y ∧ p.y < dst.bottom :=
  (Rect.contains_iff.mp h.1).2.2

theorem MaximalRun.left_mem {S : Point → Prop} {r : Run} (h : MaximalRun S r) : S ⟨r.x1, r.y⟩ :=
  h.mem _ ⟨rfl, Int.le_refl r.x1, h.nonempty⟩

/-- A maximal run reaches as far as the maximal runs it shares a pixel with. -/
theorem MaximalRun.le_of_covers {S : Point → Prop} {r r' : Run} (h : MaximalRun S r)
    (h' : MaximalRun S r') (hp : r.Covers p) (hp' : r'.Covers p) :
    r'.x1 ≤ r.x1 ∧ r.x2 ≤ r'.x2 := by
  obtain ⟨hy, hl, hr⟩ := hp
  obtain ⟨hy', hl', hr'⟩ := hp'
  have hrow : r.y = r'.y := hy.symm.trans hy'
  constructor
  · by_contra hlt
    exact h'.left (h.mem _ ⟨hrow.symm, by dsimp only; omega, by dsimp only; omega⟩)
  · by_contra hlt
    exact h'.right (h.mem _ ⟨hrow.symm, by dsimp only; omega, by dsimp only; omega⟩)

theorem MaximalRun.eq_of_covers {S : Point → Prop} {r r' : Run} (h : MaximalRun S r)
    (h' : MaximalRun S r') (hp : r.Covers p) (hp' : r'.Covers p) : r = r' := by
  obtain ⟨h1, h2⟩ := h.le_of_covers h' hp hp'
  obtain ⟨h3, h4⟩ := h'.le_of_covers h hp' hp
  obtain ⟨x1, x2, y⟩ := r
  obtain ⟨x1', x2', y'⟩ := r'
  have hy : y = y' := hp.1.symm.trans hp'.1
  dsimp only at h1 h2 h3 h4
  rw [hy, show x1 = x1' by omega, show x2 = x2' by omega]

end Flood

end Rasterizer
