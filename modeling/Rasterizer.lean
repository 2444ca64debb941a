import Rasterizer.Canvas.Area
import Rasterizer.Canvas.Text
import Rasterizer.Difference
import Rasterizer.Font.Listed
import Rasterizer.Font.Picture
import Rasterizer.Region.BandIndex
import Rasterizer.Proofs.Line.Clip
import Rasterizer.Proofs.Flood.Area
import Rasterizer.Proofs.Flood.Table
import Rasterizer.Proofs.Flood.Passes
import Rasterizer.Proofs.Flood.Fill
import Rasterizer.Proofs.Flood.Log
import Rasterizer.Proofs.Region.Row
import Rasterizer.Proofs.Region.Bands
import Rasterizer.Proofs.Region.Banded
import Rasterizer.Proofs.Region.Lookup
import Rasterizer.Proofs.Region.Algebra
import Rasterizer.Proofs.Flood.Links
import Rasterizer.Proofs.Surface.Cells
import Rasterizer.Proofs.Painter.Layer
import Rasterizer.Proofs.Painter.Primitives
import Rasterizer.Proofs.Painter.Call
import Rasterizer.Proofs.Painter.Masked
import Rasterizer.Proofs.RowSpans
import Rasterizer.Proofs.Canvas.Masked
import Rasterizer.Proofs.Canvas.Shapes
import Rasterizer.Proofs.Arc.Clip
import Rasterizer.Proofs.Arc.Walk
import Rasterizer.Proofs.Arc.Rounding
import Rasterizer.Proofs.Flood.Painted
import Rasterizer.Proofs.Canvas.Drawing
import Rasterizer.Proofs.Text.Confined
import Rasterizer.Proofs.Canvas.Commands
import Rasterizer.Proofs.Text.Subpixel
import Rasterizer.Proofs.Text.Ink
import Rasterizer.Proofs.Text.Agreement
import Rasterizer.Proofs.Canvas.TextClips
import Rasterizer.Proofs.Canvas.Touched
import Rasterizer.Proofs.Canvas.Figures
import Rasterizer.Proofs.Canvas.FloodFill
import Rasterizer.Proofs.Font.BuiltIn
import Rasterizer.Proofs.Text.Faults
import Rasterizer.Proofs.Bitmap.Bits
import Rasterizer.Proofs.Text.Pictures
import Rasterizer.Proofs.Text.Regular
import Rasterizer.Proofs.Text.Inked
import Rasterizer.Proofs.Canvas.Glyphs
import Rasterizer.Proofs.Region.Canonical
import Rasterizer.Proofs.Canvas.Lines
import Rasterizer.Proofs.Text.Advances
import Rasterizer.Proofs.Canvas.Measured
import Rasterizer.Proofs.Ellipse.Circle
import Rasterizer.Proofs.Ellipse.Rows
import Rasterizer.Proofs.Polygon.Limited
import Rasterizer.Proofs.Polygon.Held
import Rasterizer.Proofs.Polygon.Chains
import Rasterizer.Proofs.Polygon.Ties
import Rasterizer.Proofs.Polygon.Relisted
import Rasterizer.Proofs.CoordSpace
import Rasterizer.Proofs.Canvas.Polygons
import Rasterizer.Proofs.Text.Loaded
import Rasterizer.Proofs.Text.Scratch
import Rasterizer.Proofs.Canvas.Scratch
import Rasterizer.Proofs.Arc.Nested
import Rasterizer.Proofs.Arc.Sweeps
import Rasterizer.Proofs.Arc.Slices
import Rasterizer.Proofs.Arc.Directions
import Rasterizer.Proofs.Painter.Bands
import Rasterizer.Proofs.RowSpans.Sets
import Rasterizer.Proofs.Flood.Watched
import Rasterizer.Proofs.Flood.Ends
import Rasterizer.Proofs.Text.Turned
import Rasterizer.Proofs.Text.Blended
import Rasterizer.Proofs.Text.Dots
import Rasterizer.Proofs.Text.InkOnly
import Rasterizer.Proofs.Bitmap.Loops
import Rasterizer.Proofs.Bitmap.Moves
import Rasterizer.Proofs.Bitmap.Mirrors
import Rasterizer.Proofs.Text.Flips
import Rasterizer.Proofs.Text.TableDots
import Rasterizer.Proofs.Canvas.GlyphDots
import Rasterizer.Proofs.Canvas.Magnified
import Rasterizer.Proofs.Text.Restyled
import Rasterizer.Proofs.Canvas.Mirrored
import Rasterizer.Proofs.Canvas.Fallback
import Rasterizer.Proofs.Canvas.Boxes
import Rasterizer.Proofs.CoordSpace.RoundTrip
import Rasterizer.Proofs.Canvas.Ellipses
import Rasterizer.Proofs.Text.Grounds
import Rasterizer.Proofs.PixelFormat
import Rasterizer.Proofs.Surface.Writes
import Rasterizer.Proofs.Brush.Walk
import Rasterizer.Proofs.Text.Expanded
import Rasterizer.Proofs.Line.Steps
import Rasterizer.Proofs.Canvas.Ramps
import Rasterizer.Proofs.Font.Flat
import Rasterizer.Proofs.Font.Pictures
import Rasterizer.Proofs.Line.Windows
import Rasterizer.Proofs.Text.Runs
