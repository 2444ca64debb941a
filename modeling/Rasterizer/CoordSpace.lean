import Rasterizer.Fault
import Rasterizer.Rect
import Rasterizer.Scalar

/-! Coordinate spaces. Drawing calls take logical points. A mapping turns them into
device points, relative to the device rectangle, and a shift by that rectangle's corner
turns those into screen points, where surfaces and clip regions live. -/

namespace Rasterizer

/-- How logical points become device points. -/
inductive MapMode where
  /-- One to one. -/
  | text
  /-- A scale and a shift of its own on each axis. -/
  | anisotropic
deriving Repr, DecidableEq, Inhabited

/-- The quotient `v * num / den` cut toward zero; `v` itself when `den` is zero. -/
def scaleBy (v num den : Int) : Int :=
  if den = 0 then v else wrap32 ((v * num).tdiv den)

/-- A mapping from logical to device points. -/
structure Mapping where
  mode : MapMode := .text
  windowOrg : Point := ⟨0, 0⟩
  windowExt : Point := ⟨1, 1⟩
  viewportOrg : Point := ⟨0, 0⟩
  viewportExt : Point := ⟨1, 1⟩
deriving Repr, DecidableEq

namespace Mapping

/-- The mapping with another window extent, of which neither part may be zero. -/
def withWindowExt (m : Mapping) (ext : Point) : Except RasterError Mapping :=
  if ext.x = 0 ∨ ext.y = 0 then throw .degenerateMapping else pure { m with windowExt := ext }

/-- The mapping with another viewport extent, of which neither part may be zero. -/
def withViewportExt (m : Mapping) (ext : Point) : Except RasterError Mapping :=
  if ext.x = 0 ∨ ext.y = 0 then throw .degenerateMapping else pure { m with viewportExt := ext }

def logicalToDevice (m : Mapping) (p : Point) : Point :=
  match m.mode with
  | .text => p
  | .anisotropic =>
    ⟨scaleBy (p.x - m.windowOrg.x) m.viewportExt.x m.windowExt.x + m.viewportOrg.x,
      scaleBy (p.y - m.windowOrg.y) m.viewportExt.y m.windowExt.y + m.viewportOrg.y⟩

def deviceToLogical (m : Mapping) (p : Point) : Point :=
  match m.mode with
  | .text => p
  | .anisotropic =>
    ⟨scaleBy (p.x - m.viewportOrg.x) m.windowExt.x m.viewportExt.x + m.windowOrg.x,
      scaleBy (p.y - m.viewportOrg.y) m.windowExt.y m.viewportExt.y + m.windowOrg.y⟩

end Mapping

/-- A mapping together with the place of its device on the screen. -/
structure CoordSpace where
  mapping : Mapping := {}
  /-- The device rectangle, in screen points. -/
  device : Rect
  /-- Logical, device and screen points are the same, whatever the mapping says. -/
  isScreen : Bool
deriving Repr, DecidableEq

namespace CoordSpace

/-- The space whose logical points are screen points. -/
def screen (rc : Rect) : CoordSpace := { device := rc, isScreen := true }

/-- The space of a window at the given place on the screen. -/
def window (rc : Rect) : CoordSpace := { device := rc, isScreen := false }

def deviceToScreen (s : CoordSpace) (p : Point) : Point :=
  if s.isScreen then p else ⟨p.x + s.device.left, p.y + s.device.top⟩

def screenToDevice (s : CoordSpace) (p : Point) : Point :=
  if s.isScreen then p else ⟨p.x - s.device.left, p.y - s.device.top⟩

def logicalToDevice (s : CoordSpace) (p : Point) : Point :=
  if s.isScreen then p else s.mapping.logicalToDevice p

def deviceToLogical (s : CoordSpace) (p : Point) : Point :=
  if s.isScreen then p else s.mapping.deviceToLogical p

def logicalToScreen (s : CoordSpace) (p : Point) : Point :=
  s.deviceToScreen (s.logicalToDevice p)

def screenToLogical (s : CoordSpace) (p : Point) : Point :=
  s.deviceToLogical (s.screenToDevice p)

/-- The rectangle between the images of two opposite corners. -/
def rectToScreen (s : CoordSpace) (rc : Rect) : Rect :=
  let a := s.logicalToScreen ⟨rc.left, rc.top⟩
  let b := s.logicalToScreen ⟨rc.right, rc.bottom⟩
  (⟨a.x, a.y, b.x, b.y⟩ : Rect).normalized

/-- Lengths are the same in all spaces. -/
def keepsLengths (s : CoordSpace) : Bool := s.isScreen || s.mapping.mode == .text

def widthToScreen (s : CoordSpace) (e : Int) : Int :=
  if s.keepsLengths then e else scaleBy e s.mapping.viewportExt.x s.mapping.windowExt.x

def widthToLogical (s : CoordSpace) (e : Int) : Int :=
  if s.keepsLengths then e else scaleBy e s.mapping.windowExt.x s.mapping.viewportExt.x

def heightToScreen (s : CoordSpace) (e : Int) : Int :=
  if s.keepsLengths then e else scaleBy e s.mapping.viewportExt.y s.mapping.windowExt.y

def heightToLogical (s : CoordSpace) (e : Int) : Int :=
  if s.keepsLengths then e else scaleBy e s.mapping.windowExt.y s.mapping.viewportExt.y

end CoordSpace

end Rasterizer
