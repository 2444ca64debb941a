/-! What can go wrong. A `RasterError` is an answer: the operation refuses its
arguments and changes nothing. A `Fault` is a broken promise of the caller, such
as a glyph image shorter than its own description says. -/

namespace Rasterizer

inductive RasterError where
  | resourceExhausted (what : String)
  | invalidSurface (width height bytesPerPixel : Nat)
  | unsupportedPixelFormat (bytesPerPixel : Nat)
  | degenerateMapping
deriving Repr, DecidableEq

def RasterError.message : RasterError → String
  | .resourceExhausted what => "Resource exhausted while growing " ++ what
  | .invalidSurface w h bpp =>
    "Invalid surface geometry: " ++ toString w ++ "x" ++ toString h ++ " at " ++
      toString bpp ++ " bytes per pixel"
  | .unsupportedPixelFormat bpp =>
    "Unsupported pixel format: " ++ toString bpp ++ " bytes per pixel"
  | .degenerateMapping => "Window or viewport extent must not be zero"

inductive Fault where
  /-- An access outside a buffer. -/
  | outOfRange
  /-- A buffer split into rows of no bytes. -/
  | emptyRows
  | zeroDivisor
  /-- A quotient beyond the signed 64-bit range. -/
  | quotientTooLarge
deriving Repr, DecidableEq

/-- A step that succeeds has succeeded at each of its parts. -/
theorem Fault.bind_eq_ok {α β : Type} {x : Except Fault α} {f : α → Except Fault β} {b : β} :
    (x >>= f) = .ok b ↔ ∃ a, x = .ok a ∧ f a = .ok b := by
  cases x <;> simp [bind, Except.bind]

end Rasterizer
