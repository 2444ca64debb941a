import Rasterizer.Proofs.Flood.Passes
import Mathlib.Data.PFun

/-! # A fill under watch

The loops of a fill, each going on for as long as its own condition says, with no bound on its length
and with every call of the target written down. A loop that goes on for ever has no result, nor has one
that looks for an entry outside the table. `Ends` says that a program has a result and which calls it
made on the way; its rules follow the parts of a program. -/

namespace Rasterizer.Flood

/-- What a fill asks of its target. -/
inductive Call where
  /-- Whether the pixel is a candidate. -/
  | look (p : Point)
  /-- That the run be filled. -/
  | fill (r : Run)
deriving Repr, DecidableEq

namespace Call

def isFill : Call → Bool
  | look _ => false
  | fill _ => true

/-- The call is about pixels of the rectangle. -/
def Within (dst : Rect) : Call → Prop
  | look p => dst.contains p.x p.y = true
  | fill r => r.x1 ≤ r.x2 ∧ dst.contains r.x1 r.y = true ∧ dst.contains r.x2 r.y = true

end Call

/-- A program that works on a fill and writes down what it asks of the target. -/
abbrev Watched (σ : Type) := StateT (State σ × List Call) Part

namespace Watched

variable {σ α β : Type}

/-! ## The loops -/

/-- Goes through the body again and again, from each place to the one on the right, until there is an
answer on the left. -/
def loop (body : β → Watched σ (α ⊕ β)) (b : β) : Watched σ α := fun w =>
  PFun.fix (fun p : β × State σ × List Call =>
    (body p.1 p.2).map fun r => r.1.map (·, r.2) (·, r.2)) (b, w)

section Program

variable (t : FloodTarget σ) (dst : Rect)

def look (x y : Int) : Watched σ Bool := fun w =>
  Part.some (t.isCandidate w.1.target x y, w.1, w.2 ++ [.look ⟨x, y⟩])

def paint (r : Run) : Watched σ Unit := fun w =>
  Part.some ((), { w.1 with target := t.fill w.1.target r }, w.2 ++ [.fill r])

def size : Watched σ Nat := fun w => Part.some (w.1.table.size, w)

/-- There is no entry outside the table. -/
def entry (c : Nat) : Watched σ Segment := fun w => (Part.ofOption w.1.table[c]?).map (·, w)

def edit (f : Array Segment → Array Segment) : Watched σ Unit := fun w =>
  Part.some ((), { w.1 with table := f w.1.table }, w.2)

/-- Follows the links from an entry to the last. -/
def lastFrom : Nat → Watched σ Nat := loop fun c => do
  let g ← entry c
  return if g.next = 0 then .inl c else .inr g.next

/-- Follows the links from an entry to the first run that holds the column `x`. -/
def heldFrom (x : Int) : Nat → Watched σ (Option Int) := loop fun c => do
  let g ← entry c
  return if g.left ≤ x ∧ x ≤ g.right then .inl (some g.right)
    else if g.next = 0 then .inl none
    else .inr g.next

def reachLeft (y : Int) : Int → Watched σ Int := loop fun x => do
  if dst.left ≤ x - 1 then
    return if ← look t (x - 1) y then .inr (x - 1) else .inl x
  else return .inl x

def reachRight (y : Int) : Int → Watched σ Int := loop fun x => do
  if x + 1 < dst.right then
    return if ← look t (x + 1) y then .inr (x + 1) else .inl x
  else return .inl x

def record (seg : Segment) : Watched σ Unit := do
  let head ← entry (rowIndex dst seg.y)
  if head.inUse then
    let last ← lastFrom (rowIndex dst seg.y)
    edit (appendTo · last seg)
  else edit (·.setIfInBounds (rowIndex dst seg.y) seg)

def fillRun (x y : Int) : Watched σ Int := do
  if ← look t x y then
    let left ← reachLeft t dst y x
    let right ← reachRight t dst y x
    paint t ⟨left, right, y⟩
    record dst (entryOf dst ⟨left, right, y⟩)
    return right + 2
  else return x + 1

/-- Looks along the row `y` up to `right`, from a column and with what was found before it. -/
def lookAlong (y right : Int) : Int × Bool → Watched σ Bool := loop fun p => do
  if right < p.1 then return .inl p.2
  else
    match ← heldFrom p.1 (rowIndex dst y) with
    | some r => return .inr (r + 2, p.2)
    | none =>
      let next ← fillRun t dst p.1 y
      return .inr (next, true)

def visit (side : Side) (c : Nat) : Watched σ Bool := do
  let seg ← entry c
  if seg.todo side then
    edit (·.modify c (·.settle side))
    lookAlong t dst (side.row seg.y) seg.right (seg.left, false)
  else return false

/-- Goes through the table from an entry on, and says whether the pass has been quiet before it. -/
def passes : Nat × Bool → Watched σ Unit := loop fun p => do
  if p.1 < (← size) then
    let below ← visit t dst .below p.1
    let above ← visit t dst .above p.1
    return .inr (if above ∧ p.1 < dst.height.toNat ∧ 0 < p.1 then p.1 - 1 else p.1 + 1,
      p.2 && !below && !above)
  else return if p.2 then .inl () else .inr (0, true)

/-- The target after a fill around `(x, y)`, with the calls made of it. -/
def fill (target : σ) (dst : Rect) (x y : Int) : Part (σ × List Call) :=
  let dst := dst.normalized
  if dst.contains x y then
    let program : Watched σ Unit := do
      let _ ← fillRun t dst x y
      passes t dst (0, true)
    (program (State.start dst target y, [])).map fun r => (r.2.1.target, r.2.2)
  else Part.some (target, [])

end Program

/-! ## What a program does, part by part -/

section Parts

variable {m : Watched σ α} {f : α → Watched σ β} {a : α} {w w' : State σ × List Call}

theorem mem_bind {r : β × State σ × List Call} (h : (a, w') ∈ m w) (hf : r ∈ f a w') :
    r ∈ (m >>= f) w := by
  change r ∈ (m w).bind fun p => f p.1 p.2
  exact Part.mem_bind h hf

variable {body : β → Watched σ (α ⊕ β)} {b b' : β}

theorem mem_loop_last (h : (.inl a, w') ∈ body b w) : (a, w') ∈ loop body b w :=
  PFun.fix_stop (Part.mem_map _ h)

theorem mem_loop_next {r : α × State σ × List Call} (h : (.inr b', w') ∈ body b w)
    (h' : r ∈ loop body b' w') : r ∈ loop body b w :=
  PFun.mem_fix_iff.mpr (.inr ⟨_, Part.mem_map _ h, h'⟩)

theorem mem_entry {c : Nat} {g : Segment} (hg : w.1.table[c]? = some g) : (g, w) ∈ entry c w :=
  Part.mem_map _ (Part.mem_ofOption.mpr hg)

end Parts

/-! ## Programs that end -/

/-- From the state `s` the program ends with the answer `a` in the state `s'`. It looks at pixels of the
rectangle only and fills runs of its pixels, and of `n` runs that it may fill it leaves `k`. -/
def Ends (dst : Rect) (n : Nat) (m : Watched σ α) (s : State σ) (a : α) (s' : State σ) (k : Nat) : Prop :=
  ∃ new : List Call, (∀ c ∈ new, c.Within dst) ∧ new.countP Call.isFill + k ≤ n ∧
    ∀ calls, (a, s', calls ++ new) ∈ m (s, calls)

variable {t : FloodTarget σ} {dst : Rect} {m : Watched σ α} {f : α → Watched σ β} {s s' s'' : State σ}
  {a : α} {b b' : β} {n k l : Nat} {x y : Int}

theorem ends_of_quiet (h : ∀ calls, (a, s', calls) ∈ m (s, calls)) : Ends dst n m s a s' n :=
  ⟨[], fun _ hc => absurd hc List.not_mem_nil, by simp, by simpa using h⟩

theorem ends_pure (s : State σ) (a : α) : Ends dst n (pure a) s a s n :=
  ends_of_quiet fun _ => Part.mem_some _

theorem ends_size (s : State σ) : Ends dst n size s s.table.size s n :=
  ends_of_quiet fun _ => Part.mem_some _

theorem ends_entry {c : Nat} {g : Segment} (hg : s.table[c]? = some g) :
    Ends dst n (entry c) s g s n :=
  ends_of_quiet fun _ => mem_entry hg

theorem ends_edit (s : State σ) (f : Array Segment → Array Segment) :
    Ends dst n (edit f) s () { s with table := f s.table } n :=
  ends_of_quiet fun _ => Part.mem_some _

theorem ends_look (hin : dst.contains x y = true) (s : State σ) :
    Ends dst n (look t x y) s (t.isCandidate s.target x y) s n :=
  ⟨[.look ⟨x, y⟩], by simpa [Call.Within] using hin, by simp [Call.isFill], fun _ => Part.mem_some _⟩

theorem ends_paint {r : Run} (hin : (Call.fill r).Within dst) (s : State σ) :
    Ends dst (n + 1) (paint t r) s () { s with target := t.fill s.target r } n :=
  ⟨[.fill r], by simpa using hin, by simp [Call.isFill, Nat.add_comm], fun _ => Part.mem_some _⟩

/-- One program, then another: a third that runs as the two do ends as they do. -/
theorem Ends.andThen {m' m'' : Watched σ β} (h : Ends dst n m s a s' k) (h' : Ends dst k m' s' b s'' l)
    (hruns : ∀ w w' r, (a, w') ∈ m w → r ∈ m' w' → r ∈ m'' w) : Ends dst n m'' s b s'' l := by
  obtain ⟨new, hnew, hn, hm⟩ := h
  obtain ⟨new', hnew', hk, hm'⟩ := h'
  refine ⟨new ++ new', ?_, ?_, ?_⟩
  · intro c hc
    rcases List.mem_append.mp hc with hc | hc
    · exact hnew c hc
    · exact hnew' c hc
  · rw [List.countP_append]
    omega
  · intro calls
    rw [← List.append_assoc]
    exact hruns _ _ _ (hm calls) (hm' (calls ++ new))

theorem Ends.bind (h : Ends dst n m s a s' k) (h' : Ends dst k (f a) s' b s'' l) :
    Ends dst n (m >>= f) s b s'' l :=
  h.andThen h' fun _ _ _ => mem_bind

theorem Ends.mono {n' k' : Nat} (h : Ends dst n m s a s' k) (hn : n ≤ n') (hk : k' ≤ k) :
    Ends dst n' m s a s' k' := by
  obtain ⟨new, hnew, hcount, hm⟩ := h
  exact ⟨new, hnew, by omega, hm⟩

section Loop

variable {body : β → Watched σ (α ⊕ β)}

theorem Ends.last (h : Ends dst n (body b) s (.inl a) s' k) : Ends dst n (loop body b) s a s' k := by
  obtain ⟨new, hnew, hn, hm⟩ := h
  exact ⟨new, hnew, hn, fun calls => mem_loop_last (hm calls)⟩

/-- A loop ends as it does from the next place. -/
theorem Ends.next (h : Ends dst n (body b) s (.inr b') s' k)
    (h' : Ends dst k (loop body b') s' a s'' l) : Ends dst n (loop body b) s a s'' l :=
  h.andThen h' fun _ _ _ => mem_loop_next

end Loop

end Watched

end Rasterizer.Flood
