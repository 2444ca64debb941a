import Rasterizer.Point

/-! Rectangles with inclusive left and top and exclusive right and bottom edges. A
rectangle may be given with its edges in the wrong order; `normalized` sorts them. -/

namespace Rasterizer

/-- A rectangle of pixels; `right` and `bottom` lie just outside. -/
structure Rect where
  left : Int
  top : Int
  right : Int
  bottom : Int
deriving Repr, DecidableEq, Inhabited

namespace Rect

def zero : Rect := ⟨0, 0, 0, 0⟩

def ofSize (x y w h : Int) : Rect := ⟨x, y, x + w, y + h⟩

def width (rc : Rect) : Int := rc.right - rc.left

def height (rc : Rect) : Int := rc.bottom - rc.top

def isEmpty (rc : Rect) : Bool := rc.right ≤ rc.left || rc.bottom ≤ rc.top

/-- The rectangle with its edges in order. -/
def normalized (rc : Rect) : Rect :=
  ⟨min rc.left rc.right, min rc.top rc.bottom, max rc.left rc.right, max rc.top rc.bottom⟩

def contains (rc : Rect) (x y : Int) : Bool :=
  rc.left ≤ x && x < rc.right && rc.top ≤ y && y < rc.bottom

theorem contains_iff {rc : Rect} {x y : Int} :
    rc.contains x y = true ↔ rc.left ≤ x ∧ x < rc.right ∧ rc.top ≤ y ∧ y < rc.bottom := by
  simp [contains, and_assoc]

/-- `inner` has pixels and all of them lie inside. -/
def covers (rc inner : Rect) : Bool :=
  !inner.isEmpty && rc.left ≤ inner.left && inner.right ≤ rc.right &&
    rc.top ≤ inner.top && inner.bottom ≤ rc.bottom

/-- The part of `a` that lies in `b`, possibly without pixels. -/
def meet (a b : Rect) : Rect :=
  ⟨max a.left b.left, max a.top b.top, min a.right b.right, min a.bottom b.bottom⟩

theorem contains_meet (a b : Rect) (x y : Int) :
    (a.meet b).contains x y = (a.contains x y && b.contains x y) := by
  rw [Bool.eq_iff_iff]
  simp only [Bool.and_eq_true, contains_iff, meet]
  omega

/-- The two share a pixel. -/
def overlaps (a b : Rect) : Bool := !(a.meet b).isEmpty

/-- The common part, when it has pixels. -/
def intersect? (a b : Rect) : Option Rect :=
  if (a.meet b).isEmpty then none else some (a.meet b)

/-- The smallest rectangle around both, of which one without pixels counts nothing. -/
def bound (a b : Rect) : Rect :=
  if a.isEmpty then b
  else if b.isEmpty then a
  else ⟨min a.left b.left, min a.top b.top, max a.right b.right, max a.bottom b.bottom⟩

/-- The rectangle with each vertical edge moved out by `dx` and each other edge by `dy`. -/
def inflate (rc : Rect) (dx dy : Int) : Rect :=
  ⟨rc.left - dx, rc.top - dy, rc.right + dx, rc.bottom + dy⟩

/-- The rectangle moved. -/
def shift (rc : Rect) (dx dy : Int) : Rect :=
  ⟨rc.left + dx, rc.top + dy, rc.right + dx, rc.bottom + dy⟩

/-- The rectangle whose edges have the same low 32 bits. -/
def wrap (rc : Rect) : Rect := ⟨wrap32 rc.left, wrap32 rc.top, wrap32 rc.right, wrap32 rc.bottom⟩

/-- The rectangle moved in 32 bits: an edge that leaves the range comes back at its other end. -/
def offset (rc : Rect) (dx dy : Int) : Rect := (rc.shift dx dy).wrap

/-- The edges fit in 32 bits. -/
def Fits (rc : Rect) : Prop := Fits32 rc.left ∧ Fits32 rc.top ∧ Fits32 rc.right ∧ Fits32 rc.bottom

instance (rc : Rect) : Decidable rc.Fits := inferInstanceAs (Decidable (_ ∧ _))

theorem Fits.wrap {rc : Rect} (h : rc.Fits) : rc.wrap = rc := by
  obtain ⟨hleft, htop, hright, hbottom⟩ := h
  rw [Rect.wrap, hleft.wrap, htop.wrap, hright.wrap, hbottom.wrap]

/-- The smallest rectangle with every point as a pixel inside; `zero` for no points. -/
def ofPoints : List Point → Rect
  | [] => zero
  | p :: ps =>
    let rc := ps.foldl
      (fun rc q => ⟨min rc.left q.x, min rc.top q.y, max rc.right q.x, max rc.bottom q.y⟩)
      (⟨p.x, p.y, p.x, p.y⟩ : Rect)
    ⟨rc.left, rc.top, rc.right + 1, rc.bottom + 1⟩

/-- The part of the row `y` from `x` on, `w` pixels long, that lies inside: its start and length. -/
def clipRow? (clip : Rect) (x y w : Int) : Option (Int × Int) :=
  if w ≤ 0 ∨ y < clip.top ∨ clip.bottom ≤ y then none
  else
    let l := max x clip.left
    let r := min (x + w) clip.right
    if r ≤ l then none else some (l, r - l)

/-- The part of the column `x` from `y` on, `h` pixels long, that lies inside: its start and length. -/
def clipColumn? (clip : Rect) (x y h : Int) : Option (Int × Int) :=
  if h ≤ 0 ∨ x < clip.left ∨ clip.right ≤ x then none
  else
    let t := max y clip.top
    let b := min (y + h) clip.bottom
    if b ≤ t then none else some (t, b - t)

end Rect

end Rasterizer
