import Rasterizer.Fault
import Rasterizer.Font.Table

/-! Glyphs drawn as text: a row is a string, and a hash sign or a capital X is a set
bit. Sizes are kept in 16 bits, so that a picture wider than that wraps, and one with
a set bit behind its own data is a fault. -/

namespace Rasterizer.Picture

abbrev Rows := List (List Char)

/-- The character stands for a set bit. -/
def isInk (c : Char) : Bool := c == '#' || c == 'X'

/-- The low 16 bits of a size. -/
def low16 (n : Nat) : Nat := n % 65536

def bitAt (rows : Array (Array Char)) (x y : Nat) : Bool :=
  match rows[y]? with
  | some row =>
    match row[x]? with
    | some c => isInk c
    | none => false
  | none => false

/-- The buffer with the bits of one row set from the byte `start` on; all of them must be in it. -/
def setRow (start : Nat) (data : Array UInt8) (row : List Char) : Except Fault (Array UInt8) :=
  row.zipIdx.foldlM
    (fun data (c, x) =>
      if isInk c then
        if start + x / 8 < data.size then
          pure (data.modify (start + x / 8) fun b => b ||| UInt8.ofNat (128 >>> (x % 8)))
        else throw .outOfRange
      else pure data)
    data

/-- The buffer with the bits of all rows set, none if a row has not the given length. -/
def setRows (width pitch : Nat) : Nat → Array UInt8 → Rows → Except Fault (Option (Array UInt8))
  | _, data, [] => pure (some data)
  | y, data, row :: rest =>
    if row.length = width then do
      setRows width pitch (y + 1) (← setRow (y * pitch) data row) rest
    else pure none

/-- The packed glyph of a picture whose rows have one length. -/
def pack (rows : Rows) : Except Fault (Option (TableGlyph UInt8)) :=
  match rows with
  | [] => pure none
  | first :: _ =>
    let width := first.length
    let pitch := GlyphTable.bitRowSize (low16 width)
    if width < 65536 then
      if rows.all fun r => r.length = width then
        let chars := (rows.map List.toArray).toArray
        pure (some ⟨width, packBits pitch rows.length (bitAt chars)⟩)
      else pure none
    else do
      match ← setRows width pitch 0 (Array.replicate (pitch * rows.length) 0) rows with
      | some data => pure (some ⟨low16 width, data⟩)
      | none => pure none

/-- The packed glyphs of all pictures, none if one is refused. -/
def packAll (accept : Rows → Bool) : List Rows → Except Fault (Option (List (TableGlyph UInt8)))
  | [] => pure (some [])
  | rows :: rest =>
    if accept rows then do
      match ← pack rows with
      | none => pure none
      | some g =>
        match ← packAll accept rest with
        | none => pure none
        | some gs => pure (some (g :: gs))
    else pure none

def table? (name : String) (height ascent : Nat) (first : UInt32)
    (glyphs : List (TableGlyph UInt8)) : Option (GlyphTable UInt8) :=
  GlyphTable.build? name height ascent first GlyphTable.bitRowSize glyphs.toArray

/-- The table of pictures of one height. -/
def varying (name : String) (ascent : Nat) (first : UInt32) (pictures : List Rows) :
    Except Fault (Option (GlyphTable UInt8)) :=
  match pictures with
  | [] => pure none
  | rows :: _ => do
    let height := low16 rows.length
    return (← packAll (fun r => low16 r.length = height) pictures).bind
      (table? name height ascent first)

/-- The table of pictures of one width and one height. -/
def fixed (name : String) (ascent : Nat) (first : UInt32) (pictures : List Rows) :
    Except Fault (Option (GlyphTable UInt8)) :=
  match pictures with
  | [] => pure none
  | rows :: _ => do
    let height := low16 rows.length
    match ← packAll (fun _ => true) pictures with
    | none => pure none
    | some glyphs =>
      let width := (glyphs.head?.map TableGlyph.width).getD 0
      if glyphs.all (fun g => g.width = width) && pictures.all (fun r => low16 r.length = height) then
        return table? name height ascent first glyphs
      else pure none

end Rasterizer.Picture
