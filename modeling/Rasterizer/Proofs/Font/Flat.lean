import Rasterizer.Fault
import Rasterizer.Font.Table

/-! # Glyphs in one buffer

The glyphs of a table may lie one behind another in one buffer, with an entry for each that says where
(`FlatGlyphs`). Every entry goes on marking its glyph while more of them are added (`FlatGlyphs.Reads`), so
a table reads the glyphs back that it was made of (`GlyphTable.exists_flat`). -/

namespace Rasterizer

/-- The part of a common buffer that a glyph lies in. -/
structure GlyphEntry where
  width : Nat
  offset : Nat
  length : Nat

/-- Glyphs one behind another. -/
structure FlatGlyphs (α : Type) where
  entries : Array GlyphEntry := #[]
  data : Array α := #[]

namespace FlatGlyphs

variable {α : Type}

/-- One more glyph, refused if it has not the elements that its width asks for. -/
def add? (size : Nat → Nat) (t : FlatGlyphs α) (g : TableGlyph α) : Option (FlatGlyphs α) :=
  if g.data.size = size g.width then
    some ⟨t.entries.push ⟨g.width, t.data.size, size g.width⟩, t.data ++ g.data⟩
  else none

def ofGlyphs? (size : Nat → Nat) (glyphs : List (TableGlyph α)) : Option (FlatGlyphs α) :=
  glyphs.foldlM (add? size) {}

/-- The glyph at a place, cut out of the buffer. -/
def glyph? (t : FlatGlyphs α) (i : Nat) : Except Fault (Option (TableGlyph α)) :=
  match t.entries[i]? with
  | none => pure none
  | some e =>
    if e.offset + e.length ≤ t.data.size then pure (some ⟨e.width, t.data.extract e.offset (e.offset + e.length)⟩)
    else throw .outOfRange

/-- An entry marks the part of the buffer that holds the glyph. -/
structure Marks (data : Array α) (e : GlyphEntry) (g : TableGlyph α) : Prop where
  width : e.width = g.width
  inside : e.offset + e.length ≤ data.size
  data : data.extract e.offset (e.offset + e.length) = g.data

/-- There is one entry for each glyph, in their order. -/
structure Reads (t : FlatGlyphs α) (glyphs : List (TableGlyph α)) : Prop where
  count : t.entries.size = glyphs.length
  marks : ∀ {i : Nat} {g : TableGlyph α}, glyphs[i]? = some g → ∃ e, t.entries[i]? = some e ∧ Marks t.data e g

variable {t t' : FlatGlyphs α} {glyphs : List (TableGlyph α)} {g : TableGlyph α} {size : Nat → Nat}

theorem Marks.append {data more : Array α} {e : GlyphEntry} (h : Marks data e g) : Marks (data ++ more) e g where
  width := h.width
  inside := by
    rw [Array.size_append]
    have := h.inside
    omega
  data := by
    rw [Array.extract_append, h.data]
    simp [h.inside]

theorem Reads.add? (h : Reads t glyphs) (hadd : t.add? size g = some t') : Reads t' (glyphs ++ [g]) := by
  rw [FlatGlyphs.add?] at hadd
  split at hadd
  next hsize =>
    cases hadd
    refine ⟨by simp [h.count], fun {i g'} hi => ?_⟩
    rcases Nat.lt_trichotomy i glyphs.length with hlt | rfl | hgt
    · rw [List.getElem?_append_left hlt] at hi
      obtain ⟨e, he, hmarks⟩ := h.marks hi
      refine ⟨e, ?_, hmarks.append⟩
      rwa [Array.getElem?_push, if_neg (by rw [h.count]; omega)]
    · rw [List.getElem?_concat_length] at hi
      cases hi
      refine ⟨_, by rw [Array.getElem?_push, if_pos h.count.symm], rfl, ?_, ?_⟩
      · exact Nat.le_of_eq (by rw [Array.size_append, hsize])
      · simp [← hsize]
    · rw [List.getElem?_eq_none (by simp; omega)] at hi
      cases hi
  next => cases hadd

theorem Reads.foldlM (size : Nat → Nat) (h : Reads t glyphs) (more : List (TableGlyph α))
    (hsize : ∀ g ∈ more, g.data.size = size g.width) :
    ∃ t', more.foldlM (FlatGlyphs.add? size) t = some t' ∧ Reads t' (glyphs ++ more) := by
  induction more generalizing t glyphs with
  | nil => exact ⟨t, rfl, by rwa [List.append_nil]⟩
  | cons g more ih =>
    have hadd : t.add? size g = some _ := if_pos (hsize g List.mem_cons_self)
    obtain ⟨t', hmore, hreads⟩ := ih (h.add? hadd) fun g' hg' => hsize g' (List.mem_cons_of_mem _ hg')
    rw [List.append_assoc] at hreads
    refine ⟨t', ?_, hreads⟩
    rw [List.foldlM_cons, hadd]
    exact hmore

theorem Reads.glyph?_eq (h : Reads t glyphs) (i : Nat) : t.glyph? i = .ok glyphs[i]? := by
  cases hg : glyphs[i]? with
  | none =>
    have hentry : t.entries[i]? = none :=
      Array.getElem?_eq_none (h.count ▸ List.getElem?_eq_none_iff.mp hg)
    rw [glyph?, hentry]
    rfl
  | some g =>
    obtain ⟨e, he, hmarks⟩ := h.marks hg
    rw [glyph?, he]
    dsimp only
    rw [if_pos hmarks.inside, hmarks.data, hmarks.width]
    rfl

end FlatGlyphs

namespace GlyphTable

variable {α : Type} {t : GlyphTable α}

theorem glyph?_of_toNat {g : UInt32} {i : Nat} (hg : g.toNat = t.first.toNat + i) : t.glyph? g = t.glyphs[i]? := by
  have hle : t.first ≤ g := UInt32.le_iff_toNat_le.mpr (by omega)
  rw [glyph?, if_neg (by simpa using hle), UInt32.toNat_sub_of_le _ _ hle, hg, Nat.add_sub_cancel_left]

theorem glyph?_of_lt {g : UInt32} (hg : g.toNat < t.first.toNat) : t.glyph? g = none :=
  if_pos (UInt32.lt_iff_toNat_lt.mpr hg)

/-- The glyphs of a table, put one behind another, are all there again. -/
theorem exists_flat (t : GlyphTable α) :
    ∃ flat, FlatGlyphs.ofGlyphs? (fun width => t.rowSize width * t.height) t.glyphs.toList = some flat ∧
      ∀ i, flat.glyph? i = .ok t.glyphs[i]? := by
  have hempty : ({} : FlatGlyphs α).Reads [] := ⟨rfl, fun h => by simp at h⟩
  obtain ⟨flat, hflat, hreads⟩ := hempty.foldlM (fun width => t.rowSize width * t.height) t.glyphs.toList
    fun g hg => t.size_data g (Array.mem_toList_iff.mp hg)
  exact ⟨flat, hflat, fun i => by rw [hreads.glyph?_eq]; simp⟩

end GlyphTable

end Rasterizer
