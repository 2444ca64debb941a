import Rasterizer.Font.Logical
import Rasterizer.Font.Picture

/-! # Built-in fonts

The fonts that are held in tables, as their constructors accept them, at any scale and with any style of
their own (`GlyphSource.BuiltIn`). In each of them the rows of a glyph are as long as its width asks for
(`BitTable.rowSize_eq`, `GreyTable.rowSize_eq`). -/

namespace Rasterizer

namespace GlyphTable

variable {α : Type} {t : GlyphTable α}

/-- A table as it was made, or set to a scale or a style afterwards. -/
inductive Adjusted (made : GlyphTable α → Prop) : GlyphTable α → Prop where
  | made {t : GlyphTable α} (h : made t) : Adjusted made t
  | scaled {t : GlyphTable α} (h : Adjusted made t) (scale : Nat) : Adjusted made (t.withScale scale)
  | styled {t : GlyphTable α} (h : Adjusted made t) (style : FontStyle) : Adjusted made (t.withStyle style)

/-- The tables that are made of packed bits or of pictures. -/
inductive MadeOfBits : GlyphTable UInt8 → Prop where
  | packed {name : String} {width height ascent : Nat} {first : UInt32} {bits : Array UInt8}
      {t : GlyphTable UInt8} (h : ofPackedBits? name width height ascent first bits = some t) : MadeOfBits t
  | fixed {name : String} {ascent : Nat} {first : UInt32} {pictures : List Picture.Rows}
      {t : GlyphTable UInt8} (h : Picture.fixed name ascent first pictures = .ok (some t)) : MadeOfBits t
  | varying {name : String} {ascent : Nat} {first : UInt32} {pictures : List Picture.Rows}
      {t : GlyphTable UInt8} (h : Picture.varying name ascent first pictures = .ok (some t)) : MadeOfBits t

abbrev BitTable : GlyphTable UInt8 → Prop := Adjusted MadeOfBits

abbrev GreyTable : GlyphTable UInt8 → Prop :=
  Adjusted fun t => ∃ name height ascent first glyphs, ofGrey? name height ascent first glyphs = some t

abbrev SubpixelTable : GlyphTable UInt8 → Prop :=
  Adjusted fun t => ∃ name height ascent first glyphs, ofSubpixel? name height ascent first glyphs = some t

abbrev ColorTable : GlyphTable Color → Prop :=
  Adjusted fun t => ∃ name height ascent first glyphs, ofColors? name height ascent first glyphs = some t

/-- A table that is built has what it was given. -/
theorem build?_eq_some_made {name : String} {height ascent : Nat} {first : UInt32} {rowSize : Nat → Nat}
    {glyphs : Array (TableGlyph α)} (h : build? name height ascent first rowSize glyphs = some t) :
    t.first = first ∧ t.height = height ∧ t.glyphs = glyphs ∧ t.rowSize = rowSize ∧ t.scale = 1 := by
  rw [build?] at h
  split at h
  · cases h
  · split at h
    · cases h
      exact ⟨rfl, rfl, rfl, rfl, rfl⟩
    · cases h

/-- What is built into a table and what is refused. -/
theorem isSome_build?_iff {name : String} {height ascent : Nat} {first : UInt32} {rowSize : Nat → Nat}
    {glyphs : Array (TableGlyph α)} : (build? name height ascent first rowSize glyphs).isSome = true ↔
      height ≠ 0 ∧ glyphs ≠ #[] ∧ ascent ≤ height ∧ ∀ g ∈ glyphs, g.data.size = rowSize g.width * height := by
  rw [build?]
  split
  next hnone =>
    rw [Array.isEmpty_iff] at hnone
    exact ⟨fun h => absurd h Bool.false_ne_true, fun h => (hnone.elim h.1 h.2.1).elim⟩
  next hsome =>
    rw [Array.isEmpty_iff, not_or] at hsome
    split
    next hmade => exact ⟨fun _ => ⟨hsome.1, hsome.2, hmade⟩, fun _ => rfl⟩
    next hmade => exact ⟨fun h => absurd h Bool.false_ne_true, fun h => (hmade h.2.2).elim⟩

theorem build?_eq_some {name : String} {height ascent : Nat} {first : UInt32} {rowSize : Nat → Nat}
    {glyphs : Array (TableGlyph α)} (h : build? name height ascent first rowSize glyphs = some t) :
    t.rowSize = rowSize ∧ t.scale = 1 := (build?_eq_some_made h).2.2.2

theorem MadeOfBits.rowSize_eq {t : GlyphTable UInt8} (h : MadeOfBits t) :
    t.rowSize = bitRowSize ∧ t.scale = 1 := by
  cases h with
  | packed h =>
    simp only [ofPackedBits?] at h
    split at h
    · cases h
    · exact build?_eq_some h
  | @fixed name ascent first pictures _ h =>
    cases pictures with
    | nil => cases h
    | cons rows pictures =>
      obtain ⟨glyphs, -, h⟩ := Fault.bind_eq_ok.mp h
      cases glyphs with
      | none => cases h
      | some glyphs =>
        dsimp only at h
        split at h
        · exact build?_eq_some (Except.ok.inj h)
        · cases h
  | @varying name ascent first pictures _ h =>
    cases pictures with
    | nil => cases h
    | cons rows pictures =>
      obtain ⟨glyphs, -, h⟩ := Fault.bind_eq_ok.mp h
      cases glyphs with
      | none => cases h
      | some glyphs => exact build?_eq_some (Except.ok.inj h)

theorem Adjusted.rowSize_eq {made : GlyphTable α → Prop} {rowSize : Nat → Nat}
    (hmade : ∀ t, made t → t.rowSize = rowSize ∧ t.scale = 1) (h : Adjusted made t) :
    t.rowSize = rowSize ∧ 1 ≤ t.scale := by
  induction h with
  | made h => exact ⟨(hmade _ h).1, Nat.le_of_eq (hmade _ h).2.symm⟩
  | scaled _ scale ih => exact ⟨ih.1, Nat.le_max_right ..⟩
  | styled _ style ih => exact ih

theorem BitTable.rowSize_eq {t : GlyphTable UInt8} (h : BitTable t) :
    t.rowSize = bitRowSize ∧ 1 ≤ t.scale := Adjusted.rowSize_eq (fun _ => MadeOfBits.rowSize_eq) h

theorem GreyTable.rowSize_eq {t : GlyphTable UInt8} (h : GreyTable t) : t.rowSize = id ∧ 1 ≤ t.scale :=
  Adjusted.rowSize_eq (fun _ ⟨_, _, _, _, _, h⟩ => build?_eq_some h) h

theorem ColorTable.rowSize_eq {t : GlyphTable Color} (h : ColorTable t) : t.rowSize = id ∧ 1 ≤ t.scale :=
  Adjusted.rowSize_eq (fun _ ⟨_, _, _, _, _, h⟩ => build?_eq_some h) h

theorem size_of_glyph? {i : UInt32} {e : TableGlyph α} (h : t.glyph? i = some e) :
    e.data.size = t.rowSize e.width * t.height := by
  rw [glyph?] at h
  split at h
  · cases h
  · exact t.size_data e (Array.mem_of_getElem? h)

end GlyphTable

/-- The sources of the built-in fonts. -/
inductive GlyphSource.BuiltIn : GlyphSource → Prop where
  | mono {t : GlyphTable UInt8} (h : t.BitTable) : BuiltIn t.monoSource
  | grey {t : GlyphTable UInt8} (h : t.GreyTable) : BuiltIn t.greySource
  | subpixel {t : GlyphTable UInt8} (h : t.SubpixelTable) : BuiltIn t.subpixelSource
  | prerendered {t : GlyphTable Color} (h : t.ColorTable) : BuiltIn t.prerenderedSource

/-- All glyphs come from built-in fonts. -/
structure LogicalFont.BuiltIn (f : LogicalFont) : Prop where
  main : f.main.BuiltIn
  second : ∀ s ∈ f.second, s.BuiltIn

theorem LogicalFont.BuiltIn.sourceOf {f : LogicalFont} (h : f.BuiltIn) (g : Glyph) :
    (f.sourceOf g).BuiltIn := by
  rw [LogicalFont.sourceOf]
  split
  · cases hs : f.second with
    | none => exact h.main
    | some s => exact h.second s hs
  · exact h.main

end Rasterizer
