import Rasterizer.Proofs.Painter.Masked

/-! # Two painters at once

Two painters that agree on a set of places, on what they hold there and on whether they may be
touched, still agree there after any masked drawing. So does what they hold inside of the set after
drawing that looks at the surroundings of a pixel, up to the distance it looks. -/

namespace Rasterizer

/-- The places that keep the distance `d` from all places outside of a set. -/
def inner (d : Nat) (A : Int → Int → Prop) (x y : Int) : Prop :=
  ∀ x' y', x - d ≤ x' → x' ≤ x + d → y - d ≤ y' → y' ≤ y + d → A x' y'

theorem inner_self {d : Nat} {A : Int → Int → Prop} {x y : Int} (h : inner d A x y) : A x y :=
  h x y (by omega) (by omega) (by omega) (by omega)

theorem inner_mono {d e : Nat} (hde : d ≤ e) {A : Int → Int → Prop} {x y : Int} (h : inner e A x y) :
    inner d A x y :=
  fun x' y' _ _ _ _ => h x' y' (by omega) (by omega) (by omega) (by omega)

theorem inner_inner {d e : Nat} {A : Int → Int → Prop} {x y : Int} (h : inner (d + e) A x y) :
    inner e (inner d A) x y :=
  fun x' y' _ _ _ _ x'' y'' _ _ _ _ => h x'' y'' (by omega) (by omega) (by omega) (by omega)

/-- The surfaces hold the same in each of the places. -/
def Surface.AgreeOn (A : Int → Int → Prop) (s t : Surface) : Prop :=
  ∀ x y, A x y → t.get? x y = s.get? x y

namespace Painter

structure Twins (A : Int → Int → Prop) (p q : Painter) : Prop where
  sound : p.frame.Sound
  sound' : q.frame.Sound
  tool : q.tool = p.tool
  shape : p.surface.SameShape q.surface
  reaches : ∀ x y, A x y → q.frame.reaches x y = p.frame.reaches x y
  agree : Surface.AgreeOn A p.surface q.surface

variable {A : Int → Int → Prop} {p q : Painter} {f : Painter → Painter}

theorem Twins.mono {B : Int → Int → Prop} (h : Twins A p q) (hBA : ∀ x y, B x y → A x y) : Twins B p q :=
  { h with
    reaches := fun x y hxy => h.reaches x y (hBA x y hxy)
    agree := fun x y hxy => h.agree x y (hBA x y hxy) }

theorem Masked.twins (hf : Masked f) (h : Twins A p q) : Twins A (f p) (f q) := by
  obtain ⟨g, u, hg⟩ := hf p.tool p.surface.format
  obtain ⟨hp, hpt⟩ := hg p h.sound rfl rfl
  obtain ⟨hq, hqt⟩ := hg q h.sound' h.tool h.shape.format
  refine ⟨hp.frame ▸ h.sound, hq.frame ▸ h.sound', hqt.trans hpt.symm, ?_, fun x y hxy => ?_,
    fun x y hxy => ?_⟩
  · exact (sameShape_of_frame hp.frame).symm.trans (h.shape.trans (sameShape_of_frame hq.frame))
  · rw [hp.frame, hq.frame, h.reaches x y hxy]
  · rw [hp.get?, hq.get?, h.agree x y hxy, h.reaches x y hxy]

/-- Marks of one pixel with values that differ outside of the set only. -/
theorem Twins.pixelOf (h : Twins A p q) {x y : Int} {v w : Pixel} (hvw : A x y → w = v) :
    Twins A (p.pixelOf x y v) (q.pixelOf x y w) := by
  by_cases hxy : A x y
  · rw [hvw hxy]
    exact (masked_pixelOf x y v).twins h
  · have hp := draws_pixelOf h.sound x y v
    have hq := draws_pixelOf h.sound' x y w
    have hdot : ∀ (c : Pixel) x' y', A x' y' → ∀ u, Layer.dot x y (fun _ => some c) x' y' u = none := by
      refine fun c x' y' hA u => if_neg ?_
      rintro ⟨rfl, rfl⟩
      exact hxy hA
    refine ⟨hp.frame ▸ h.sound, hq.frame ▸ h.sound', by rw [hp.tool, hq.tool, h.tool], ?_,
      fun x' y' hA => ?_, fun x' y' hA => ?_⟩
    · exact (sameShape_of_frame hp.frame).symm.trans (h.shape.trans (sameShape_of_frame hq.frame))
    · rw [hp.frame, hq.frame, h.reaches x' y' hA]
    · rw [hp.get?_of_none (hdot v x' y' hA), hq.get?_of_none (hdot w x' y' hA), h.agree x' y' hA]

theorem Twins.foldl {α : Type} {f f' : Painter → α → Painter} {as : List α}
    (hstep : ∀ p q, Twins A p q → ∀ a ∈ as, Twins A (f p a) (f' q a)) (h : Twins A p q) :
    Twins A (as.foldl f p) (as.foldl f' q) := by
  induction as generalizing p q with
  | nil => exact h
  | cons a as ih =>
    exact ih (fun p q hpq b hb => hstep p q hpq b (List.mem_cons_of_mem a hb))
      (hstep p q h a List.mem_cons_self)

end Painter

end Rasterizer
