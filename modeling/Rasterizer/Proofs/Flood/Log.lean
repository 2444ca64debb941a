import Rasterizer.Proofs.Flood.Passes

/-! # Keeping a log changes nothing

A fill asks its target only which pixels are candidates, so two targets that answer alike
are filled alike. In particular a fill does to a target what the runs written down in
the log do to it one after another (`fill_eq_foldl_calls`). -/

namespace Rasterizer.Flood

variable {σ τ : Type} {t : FloodTarget σ} {u : FloodTarget τ} {f : σ → τ} {dst : Rect}

/-- The state of a fill of another target with the same table. -/
def State.map (f : σ → τ) (s : State σ) : State τ := ⟨f s.target, s.table⟩

/-- The first target answers like the second through `f`, also after runs with pixels are filled. -/
structure Simulates (t : FloodTarget σ) (u : FloodTarget τ) (f : σ → τ) : Prop where
  isCandidate : ∀ s x y, u.isCandidate (f s) x y = t.isCandidate s x y
  fill : ∀ s (r : Run), r.x1 ≤ r.x2 → u.fill (f s) r = f (t.fill s r)

theorem fillRun_map (h : Simulates t u f) (s : State σ) (x y : Int) :
    fillRun u dst (s.map f) x y =
      ((fillRun t dst s x y).1.map f, (fillRun t dst s x y).2) := by
  have hcandidate : ∀ x, u.isCandidate (s.map f).target x y = t.isCandidate s.target x y :=
    fun x => h.isCandidate _ x y
  have hrun : runThrough u dst (s.map f) x y = runThrough t dst s x y := by
    simp only [runThrough, hcandidate]
  obtain ⟨hleft, hright⟩ := le_runThrough t dst s x y
  rw [fillRun_eq, fillRun_eq, hrun, hcandidate]
  split
  · rw [show (s.map f).target = f s.target from rfl, h.fill _ _ (hleft.trans hright)]
    rfl
  · rfl

theorem lookAlong_map (h : Simulates t u f) {y right : Int} (n : Nat) (s : State σ) (x : Int)
    (found : Bool) : lookAlong u dst y right n (s.map f) x found =
      ((lookAlong t dst y right n s x found).1.map f, (lookAlong t dst y right n s x found).2) := by
  induction n generalizing s x found with
  | zero => rfl
  | succ n ih =>
    simp only [lookAlong, fillRun_map h]
    rw [show (s.map f).filledTo? dst x y = s.filledTo? dst x y from rfl]
    split
    · rfl
    · cases s.filledTo? dst x y with
      | some r => exact ih s (r + 2) found
      | none => exact ih _ _ true

theorem visit_map (h : Simulates t u f) (side : Side) (s : State σ) (c : Nat) :
    visit u dst side (s.map f) c =
      ((visit t dst side s c).1.map f, (visit t dst side s c).2) := by
  simp only [visit]
  rw [show (s.map f).table = s.table from rfl]
  cases s.table[c]? with
  | none => rfl
  | some g =>
    dsimp only
    split
    · exact lookAlong_map h _ (s.mark c (·.settle side)) _ _
    · rfl

theorem passes_map (h : Simulates t u f) (n : Nat) (s : State σ) (c : Nat) (quiet : Bool) :
    passes u dst n (s.map f) c quiet = (passes t dst n s c quiet).map f := by
  induction n generalizing s c quiet with
  | zero => rfl
  | succ n ih =>
    simp only [passes, visit_map h]
    rw [show (s.map f).table = s.table from rfl]
    split
    · split
      · exact ih _ _ _
      · exact ih _ _ _
    · split
      · rfl
      · exact ih _ _ _

theorem final_map (h : Simulates t u f) (target : σ) (dst : Rect) (x y : Int) :
    State.final u (f target) dst x y = (State.final t target dst x y).map f := by
  have hfirst : State.afterFirst u (f target) dst x y = (State.afterFirst t target dst x y).map f :=
    congrArg Prod.fst (fillRun_map h (State.start dst target y) x y)
  rw [State.final, hfirst, passes_map h]
  rfl

theorem fill_map (h : Simulates t u f) (target : σ) (dst : Rect) (x y : Int) :
    fill u (f target) dst x y = f (fill t target dst x y) := by
  rw [fill_eq, fill_eq]
  split
  · rw [final_map h]
    rfl
  · rfl

theorem simulates_logged (t : FloodTarget σ) : Simulates t.logged t Prod.fst :=
  ⟨fun _ _ _ => rfl, fun _ _ _ => rfl⟩

/-- The log tells what was done to the target. -/
def Replays (t : FloodTarget σ) (origin : σ) (s : State (σ × List Run)) : Prop :=
  s.target.1 = s.target.2.foldl t.fill origin

theorem replays_fillRun {origin : σ} {s : State (σ × List Run)} (h : Replays t origin s)
    (x y : Int) : Replays t origin (fillRun t.logged dst s x y).1 := by
  rw [fillRun_eq]
  split
  · change t.fill s.target.1 _ = (s.target.2 ++ [_]).foldl t.fill origin
    rw [List.foldl_append, ← h]
    rfl
  · exact h

theorem replays_final (t : FloodTarget σ) (origin : σ) (x y : Int) :
    Replays t origin (State.final t.logged (origin, []) dst x y) := by
  have hstart : Replays t origin (State.start dst (origin, []) y) := rfl
  refine passes_preserves (P := Replays t origin) (fun side s c hs => ?_) _ _ _
    (replays_fillRun hstart x y)
  rcases visit_cases t.logged dst side s c with ⟨-, hv⟩ | ⟨g, -, -, hv⟩
  · rwa [hv]
  · rw [hv]
    exact lookAlong_preserves (P := Replays t origin) g.left
      (fun s x hs _ _ _ => replays_fillRun hs x _) _ _ le_rfl hs

/-- A fill does to its target what the runs it asks for do one after another. -/
theorem fill_eq_foldl_calls (t : FloodTarget σ) (origin : σ) (dst : Rect) (x y : Int) :
    fill t origin dst x y = (calls t origin dst x y).foldl t.fill origin := by
  have hmap := fill_map (simulates_logged t) (origin, []) dst x y
  rw [show (origin, ([] : List Run)).1 = origin from rfl] at hmap
  rw [hmap, calls, fill_eq]
  split
  · exact replays_final t origin x y
  · rfl

end Rasterizer.Flood
