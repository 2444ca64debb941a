import Rasterizer.Point
import Rasterizer.Rect

/-! Flood fill. The fill keeps a table of the runs it has filled and, for each, whether
the rows above and below it are still to be looked at. Each row has an entry of its own,
from which links lead to the further runs of the row. A row is looked at pixel by pixel
only between runs that the table already holds, so each run is filled once. -/

namespace Rasterizer

/-- What a fill works on: a state that says which pixels belong to the area and that changes
when a run is filled. -/
structure FloodTarget (σ : Type) where
  isCandidate : σ → Int → Int → Bool
  fill : σ → Run → σ

namespace Flood

/-- An entry of the table: a filled run and what is still to be looked at around it. -/
structure Segment where
  inUse : Bool
  left : Int
  right : Int
  y : Int
  todoAbove : Bool
  todoBelow : Bool
  /-- The place of the next run of the row, 0 after the last. -/
  next : Nat
deriving Repr, DecidableEq

def Segment.unused (y : Int) : Segment := ⟨false, 1, 0, y, false, false, 0⟩

/-- The two rows beside a run. -/
inductive Side where
  | above | below
deriving Repr, DecidableEq

def Side.row : Side → Int → Int
  | .above, y => y - 1
  | .below, y => y + 1

/-- The row on that side is still to be looked at. -/
def Segment.todo (g : Segment) : Side → Bool
  | .above => g.todoAbove
  | .below => g.todoBelow

/-- The entry with nothing left to be done on that side. -/
def Segment.settle (g : Segment) : Side → Segment
  | .above => { g with todoAbove := false }
  | .below => { g with todoBelow := false }

structure State (σ : Type) where
  target : σ
  /-- One entry for each row, and after them the further runs in order of arrival. -/
  table : Array Segment

variable {σ : Type} (t : FloodTarget σ) (dst : Rect)

/-- The state before anything is filled, for a fill that starts on the row `y`. -/
def State.start (target : σ) (y : Int) : State σ :=
  ⟨target, Array.replicate dst.height.toNat (Segment.unused y)⟩

def rowIndex (y : Int) : Nat := (y - dst.top).toNat

/-- Follows the links from the entry at `c` to the last, over `n` of them at most. -/
def lastFrom (table : Array Segment) : Nat → Nat → Nat
  | 0, c => c
  | n + 1, c =>
    match table[c]? with
    | some g => if g.next = 0 then c else lastFrom table n g.next
    | none => c

/-- Follows the links from the entry at `c` to the first run that holds the column `x`, over `n`
of them at most. The answer is where the run ends. -/
def heldFrom? (table : Array Segment) (x : Int) : Nat → Nat → Option Int
  | 0, _ => none
  | n + 1, c =>
    match table[c]? with
    | some g =>
      if g.left ≤ x ∧ x ≤ g.right then some g.right
      else if g.next = 0 then none
      else heldFrom? table x n g.next
    | none => none

/-- The leftmost column reached from `x` over candidates, at most `n` to the left. -/
def reachLeft (candidate : Int → Bool) : Nat → Int → Int
  | 0, x => x
  | n + 1, x => if candidate (x - 1) then reachLeft candidate n (x - 1) else x

/-- The rightmost column reached from `x` over candidates, at most `n` to the right. -/
def reachRight (candidate : Int → Bool) : Nat → Int → Int
  | 0, x => x
  | n + 1, x => if candidate (x + 1) then reachRight candidate n (x + 1) else x

/-- The table with a new entry at the end, linked with the one at `last`. -/
def appendTo (table : Array Segment) (last : Nat) (seg : Segment) : Array Segment :=
  (table.modify last fun g => { g with next := table.size }).push seg

/-- The table with a new run: on the entry of its row while that is not in use, else at the end,
linked with the last run of the row. -/
def State.record (s : State σ) (seg : Segment) : State σ :=
  let head := rowIndex dst seg.y
  { s with
    table :=
      if s.table[head]?.any Segment.inUse then
        appendTo s.table (lastFrom s.table s.table.size head) seg
      else s.table.setIfInBounds head seg }

/-- Fills the run through `(x, y)` if that is a candidate, and says where to look on. -/
def fillRun (s : State σ) (x y : Int) : State σ × Int :=
  let candidate := fun x => t.isCandidate s.target x y
  if candidate x then
    let left := reachLeft candidate (x - dst.left).toNat x
    let right := reachRight candidate (dst.right - 1 - x).toNat x
    let s := { s with target := t.fill s.target ⟨left, right, y⟩ }
    (s.record dst ⟨true, left, right, y, dst.top < y, y + 1 < dst.bottom, 0⟩, right + 2)
  else (s, x + 1)

/-- The right end of the filled run of the row that holds the column `x`. -/
def State.filledTo? (s : State σ) (x y : Int) : Option Int :=
  heldFrom? s.table x s.table.size (rowIndex dst y)

/-- Looks along the row `y` from `x` to `right`, `n` pixels at most, and fills what belongs to
the area. The answer says whether any pixel had to be looked at. -/
def lookAlong (y right : Int) : Nat → State σ → Int → Bool → State σ × Bool
  | 0, s, _, found => (s, found)
  | n + 1, s, x, found =>
    if right < x then (s, found)
    else
      match s.filledTo? dst x y with
      | some r => lookAlong y right n s (r + 2) found
      | none =>
        let (s, next) := fillRun t dst s x y
        lookAlong y right n s next true

/-- Looks along the row `y` beside a run. -/
def lookBeside (s : State σ) (seg : Segment) (y : Int) : State σ × Bool :=
  lookAlong t dst y seg.right (seg.right - seg.left + 1).toNat s seg.left false

def State.mark (s : State σ) (c : Nat) (f : Segment → Segment) : State σ :=
  { s with table := s.table.modify c f }

/-- Looks beside the run at `c` if that is still to be done on that side. -/
def visit (side : Side) (s : State σ) (c : Nat) : State σ × Bool :=
  match s.table[c]? with
  | some seg =>
    if seg.todo side then lookBeside t dst (s.mark c (·.settle side)) seg (side.row seg.y)
    else (s, false)
  | none => (s, false)

/-- Goes through the table from `c` on, again and again until a whole pass has looked at no
pixel. After looking above a row's own entry the entry before it is next. -/
def passes : Nat → State σ → Nat → Bool → State σ
  | 0, s, _, _ => s
  | n + 1, s, c, quiet =>
    if c < s.table.size then
      let (s, below) := visit t dst .below s c
      let (s, above) := visit t dst .above s c
      let quiet := quiet && !below && !above
      if above ∧ c < dst.height.toNat ∧ 0 < c then passes n s (c - 1) quiet
      else passes n s (c + 1) quiet
    else if quiet then s
    else passes n s 0 true

/-- A bound on the number of entries visited: each pass but the last finds something to do, and
each run asks for at most two looks. -/
def passBound : Nat :=
  let rows := dst.height.toNat
  let looks := 2 * (dst.width.toNat * rows + rows + 2)
  looks * looks

/-- Fills the area around `(x, y)` inside the rectangle. -/
def fill (target : σ) (dst : Rect) (x y : Int) : σ :=
  let dst := dst.normalized
  if dst.contains x y then
    let (s, _) := fillRun t dst (State.start dst target y) x y
    (passes t dst (passBound dst) s 0 true).target
  else target

end Flood

end Rasterizer
