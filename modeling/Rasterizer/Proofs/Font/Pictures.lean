import Rasterizer.Proofs.Bitmap.Loops
import Rasterizer.Proofs.Font.BuiltIn
import Rasterizer.Proofs.Font.Flat

/-! # Pictures read back

A font that is made of pictures hands them out again. The loop that packs a picture sets one bit after
another in a buffer whose bounds are checked each time (`Picture.packLoop`), and the rows of the buffer then hold
the picture's bits (`Picture.holds_setRows`). The constructors compare heights in 16 bits, but a picture with too
many rows has not the bytes of its height (`Picture.size_packed_eq_iff`). So each of them either refuses
its pictures or makes the font that shows them (`Picture.constructors_show`), as long as their sides fit into
16 bits. -/

namespace Rasterizer.Picture

/-! ## Packed rows -/

/-- The characters of the first row. -/
def columns (rows : Rows) : Nat := (rows.head?.map List.length).getD 0

def charAt? (rows : Rows) (x y : Nat) : Option Char := rows[y]?.bind fun row => row[x]?

/-- The picture has ink at the place. -/
def Inked (rows : Rows) (x y : Nat) : Prop := charAt? rows x y = some '#' ∨ charAt? rows x y = some 'X'

/-- The picture has rows, all of one length. -/
def Rectangular (rows : Rows) : Prop := rows ≠ [] ∧ ∀ row ∈ rows, row.length = columns rows

instance (rows : Rows) : Decidable (Rectangular rows) := inferInstanceAs (Decidable (_ ∧ _))

/-- The buffer is filled bit by bit. -/
def packLoop (rows : Rows) : Except Fault (Option (TableGlyph UInt8)) :=
  match rows with
  | [] => pure none
  | first :: _ => do
    let pitch := GlyphTable.bitRowSize (low16 first.length)
    match ← setRows first.length pitch 0 (Array.replicate (pitch * rows.length) 0) rows with
    | some data => pure (some ⟨low16 first.length, data⟩)
    | none => pure none

/-- Sets the bit at `x` of the row that begins at `start`, if its byte is there. -/
def setBitAt (start x : Nat) (data : Array UInt8) : Except Fault (Array UInt8) :=
  if start + x / 8 < data.size then
    pure (data.modify (start + x / 8) fun b => b ||| UInt8.ofNat (128 >>> (x % 8)))
  else throw .outOfRange

/-- A character and its column. -/
def setChar (start : Nat) (data : Array UInt8) (c : Char × Nat) : Except Fault (Array UInt8) :=
  if isInk c.1 then setBitAt start c.2 data else pure data

/-- The bits of the picture's rows. -/
def packedRows (pitch : Nat) (rows : Rows) : Array UInt8 :=
  packBits pitch rows.length (bitAt (rows.map List.toArray).toArray)

def packed (rows : Rows) : TableGlyph UInt8 :=
  ⟨columns rows, packedRows (GlyphTable.bitRowSize (columns rows)) rows⟩

theorem bitAt_iff (rows : Rows) (x y : Nat) : bitAt (rows.map List.toArray).toArray x y = true ↔ Inked rows x y := by
  rw [bitAt, Inked, charAt?, List.getElem?_toArray, List.getElem?_map]
  cases rows[y]? with
  | none => simp
  | some row =>
    simp only [Option.map_some, List.getElem?_toArray, Option.bind_some]
    cases row[x]? with
    | none => simp
    | some c => simp [isInk]

section Rows

variable {pitch total width y₀ : Nat} {rows : Rows}

theorem holds_packedRows (pitch : Nat) (rows : Rows) :
    Holds pitch rows.length (fun x y => Inked rows x y) (packedRows pitch rows) :=
  (holds_packBits pitch rows.length _).congr fun _ _ => bitAt_iff rows _ _

theorem mask_eq {m : Nat} (hm : m < 8) : UInt8.ofNat (128 >>> m) = 0x80 >>> UInt8.ofNat m := by
  have h : ∀ m < 8, UInt8.ofNat (128 >>> m) = 0x80 >>> UInt8.ofNat m := by decide
  exact h m hm

/-- The bit of the row `y₀` is set, with a check of its byte alone. -/
theorem adds_bit (x₀ : Nat) (hx₀ : x₀ / 8 < pitch) (hy₀ : y₀ < total) :
    Adds pitch total (fun x y => x = x₀ ∧ y = y₀) (setBitAt (y₀ * pitch) x₀) := by
  intro f data h
  have hrow := h.row_le hy₀
  obtain ⟨data', hset, hholds⟩ := adds_setBitOf x₀ hx₀ hy₀ f data h
  rw [setBitOf, if_pos ⟨hrow, hx₀⟩] at hset
  refine ⟨data', (if_pos (by omega)).trans ?_, hholds⟩
  rw [mask_eq (Nat.mod_lt _ (by decide))]
  exact hset

/-- The characters from the column `k` on set the bits of those that are ink. -/
theorem adds_setChars (row : List Char) {k : Nat} (hfit : k + row.length ≤ pitch * 8) (hy₀ : y₀ < total) :
    Adds pitch total (fun x y => y = y₀ ∧ ∃ j c, row[j]? = some c ∧ x = k + j ∧ isInk c = true)
      fun data => (row.zipIdx k).foldlM (setChar (y₀ * pitch)) data := by
  induction row generalizing k with
  | nil => exact fun f data h => ⟨data, rfl, h.congr fun _ _ => by simp⟩
  | cons c row ih =>
    rw [List.length_cons] at hfit
    have hfirst : Adds pitch total _ fun data => setChar (y₀ * pitch) data (c, k) :=
      Adds.ite fun _ => adds_bit k (by omega) hy₀
    refine (hfirst.bind (ih (k := k + 1) (by omega))).congr fun x y => ?_
    constructor
    · rintro (⟨hc, rfl, hy⟩ | ⟨hy, j, c', hj, rfl, hc⟩)
      · exact ⟨hy, 0, c, rfl, rfl, hc⟩
      · exact ⟨hy, j + 1, c', hj, by omega, hc⟩
    · rintro ⟨hy, j, c', hj, rfl, hc⟩
      cases j with
      | zero =>
        cases hj
        exact .inl ⟨hc, rfl, hy⟩
      | succ j => exact .inr ⟨hy, j, c', hj, by omega, hc⟩

theorem adds_setRow (row : List Char) (hfit : row.length ≤ pitch * 8) (hy₀ : y₀ < total) :
    Adds pitch total (fun x y => y = y₀ ∧ ∃ c, row[x]? = some c ∧ isInk c = true) (setRow (y₀ * pitch) · row) := by
  have hchars : Adds pitch total _ _ := adds_setChars row (k := 0) (by omega) hy₀
  refine hchars.congr fun x y => and_congr_right fun _ => ?_
  constructor
  · rintro ⟨j, c, hc, hx, hink⟩
    rw [Nat.zero_add] at hx
    exact ⟨c, hx ▸ hc, hink⟩
  · rintro ⟨c, hc, hink⟩
    exact ⟨x, c, hc, (Nat.zero_add x).symm, hink⟩

/-- The rows from `y₀` on are set behind those that are set already. -/
theorem holds_setRows (hfit : width ≤ pitch * 8) : ∀ (rest : Rows) (y₀ : Nat) (data : Array UInt8),
    rows.drop y₀ = rest → y₀ + rest.length = rows.length →
      Holds pitch rows.length (fun x y => y < y₀ ∧ Inked rows x y) data →
        setRows width pitch y₀ data rest =
          .ok (if ∀ row ∈ rest, row.length = width then some (packedRows pitch rows) else none)
  | [], y₀, data, _, hlength, h => by
    have hdone : Holds pitch rows.length (fun x y => Inked rows x y) data :=
      h.congr fun _ hy => and_iff_right (by simp only [List.length_nil] at hlength; omega)
    rw [setRows, hdone.unique (holds_packedRows pitch rows), if_pos (List.forall_mem_nil _)]
    rfl
  | row :: rest, y₀, data, hrest, hlength, h => by
    rw [List.length_cons] at hlength
    have hrow : rows[y₀]? = some row := by
      rw [← List.head?_drop, hrest]
      rfl
    rw [setRows]
    by_cases hwidth : row.length = width
    · obtain ⟨mid, hset, hmid⟩ := adds_setRow row (by omega) (show y₀ < rows.length by omega) _ data h
      dsimp only at hset
      have hnext : Holds pitch rows.length (fun x y => y < y₀ + 1 ∧ Inked rows x y) mid := hmid.next fun x => by
        simp only [Inked, charAt?, hrow, Option.bind_some]
        cases row[x]? <;> simp [isInk]
      have hrest' : rows.drop (y₀ + 1) = rest := by rw [← List.tail_drop, hrest, List.tail_cons]
      rw [if_pos hwidth, hset]
      refine (holds_setRows hfit rest (y₀ + 1) mid hrest' (by omega) hnext).trans ?_
      simp [hwidth]
    · rw [if_neg hwidth, if_neg fun hall => hwidth (hall row List.mem_cons_self)]
      rfl

/-- A picture whose columns fit into 16 bits is packed without a fault, if its rows have one length. -/
theorem packLoop_eq (hwide : columns rows < 65536) :
    packLoop rows = .ok (if Rectangular rows then some (packed rows) else none) := by
  cases rows with
  | nil => rfl
  | cons first rest =>
    have hcolumns : columns (first :: rest) = first.length := rfl
    have hlow : low16 first.length = first.length := Nat.mod_eq_of_lt hwide
    have hblank : Holds (GlyphTable.bitRowSize first.length) (first :: rest).length
        (fun x y => y < 0 ∧ Inked (first :: rest) x y)
        (Array.replicate (GlyphTable.bitRowSize first.length * (first :: rest).length) 0) := by
      rw [← Buffer.reset_eq #[]]
      exact (holds_reset #[] _ _).congr fun _ _ => by simp
    have hroom : first.length ≤ GlyphTable.bitRowSize first.length * 8 := by
      rw [GlyphTable.bitRowSize]
      omega
    have hset := holds_setRows hroom (first :: rest) 0 _ rfl (Nat.zero_add _) hblank
    simp only [packLoop, hlow, hset, Rectangular, ne_eq, List.cons_ne_nil, not_false_eq_true, true_and, hcolumns,
      packed]
    by_cases hrows : ∀ row ∈ first :: rest, row.length = first.length
    · simp only [if_pos hrows]
      rfl
    · simp only [if_neg hrows]
      rfl

/-- The loop packs pictures of any size as they are packed, faults included. -/
theorem pack_eq_packLoop (rows : Rows) : pack rows = packLoop rows := by
  by_cases hwide : columns rows < 65536
  · rw [packLoop_eq hwide]
    cases rows with
    | nil => rfl
    | cons first rest =>
      have hcolumns : columns (first :: rest) = first.length := rfl
      have hlow : low16 first.length = first.length := Nat.mod_eq_of_lt hwide
      simp only [pack, hlow, if_pos (hcolumns ▸ hwide), List.all_eq_true, decide_eq_true_eq, Rectangular, ne_eq,
        List.cons_ne_nil, not_false_eq_true, true_and, hcolumns, packed]
      split <;> rfl
  · cases rows with
    | nil => exact absurd (by decide) hwide
    | cons first rest => exact if_neg hwide

end Rows

/-! ## Accepted pictures -/

/-- The sides fit into 16 bits. A picture with columns is refused when it has too many rows. -/
def Fits (rows : Rows) : Prop := columns rows < 65536 ∧ (rows.length < 65536 ∨ 0 < columns rows)

instance (rows : Rows) : Decidable (Fits rows) := inferInstanceAs (Decidable (_ ∧ _))

/-- Pictures of `h` rows, which the ascent fits into. -/
structure Uniform (ascent : Nat) (pictures : List Rows) (h : Nat) : Prop where
  pos : 0 < h
  lt : h < 65536
  ascent : ascent ≤ h
  height : ∀ rows ∈ pictures, rows.length = h
  width : ∀ rows ∈ pictures, ∀ row ∈ rows, row.length = columns rows

/-- The pictures that make up a font: there are some, and they have one height. -/
def Accepted (ascent : Nat) (pictures : List Rows) : Prop := pictures ≠ [] ∧ ∃ h, Uniform ascent pictures h

section Accepted

variable {name : String} {ascent height : Nat} {first : UInt32} {rows : Rows} {pictures : List Rows}

theorem packAll_eq (accept : Rows → Bool) (hfit : ∀ rows ∈ pictures, Fits rows) :
    packAll accept pictures =
      .ok (if ∀ rows ∈ pictures, accept rows = true ∧ Rectangular rows then some (pictures.map packed) else none) := by
  induction pictures with
  | nil => simp [packAll, pure, Except.pure]
  | cons rows rest ih =>
    have hrest := ih fun r hr => hfit r (List.mem_cons_of_mem _ hr)
    rw [packAll, pack_eq_packLoop, packLoop_eq (hfit rows List.mem_cons_self).1, hrest]
    simp only [List.forall_mem_cons]
    by_cases haccept : accept rows = true
    · rw [if_pos haccept]
      by_cases hrows : Rectangular rows
      · rw [if_pos hrows]
        by_cases hall : ∀ r ∈ rest, accept r = true ∧ Rectangular r
        · rw [if_pos hall, if_pos ⟨⟨haccept, hrows⟩, hall⟩]
          rfl
        · rw [if_neg hall, if_neg (show ¬((accept rows = true ∧ Rectangular rows) ∧ _) from fun h => hall h.2)]
          rfl
      · rw [if_neg hrows, if_neg (show ¬((accept rows = true ∧ Rectangular rows) ∧ _) from fun h => hrows h.1.2)]
        rfl
    · rw [if_neg haccept, if_neg (show ¬((accept rows = true ∧ Rectangular rows) ∧ _) from fun h => haccept h.1.1)]
      rfl

theorem size_packed (rows : Rows) :
    (packed rows).data.size = GlyphTable.bitRowSize (packed rows).width * rows.length := size_packBits ..

/-- The buffer of a picture has the bytes that its height in 16 bits asks for if that is the height. -/
theorem size_packed_eq_iff (hfit : Fits rows) (hheight : low16 rows.length = height) :
    (packed rows).data.size = GlyphTable.bitRowSize (packed rows).width * height ↔ rows.length = height := by
  rw [size_packed]
  refine ⟨fun h => ?_, fun h => by rw [h]⟩
  rcases hfit.2 with hlow | hcolumns
  · rwa [low16, Nat.mod_eq_of_lt hlow] at hheight
  · have hpitch : 0 < GlyphTable.bitRowSize (packed rows).width := by
      change 0 < (columns rows + 7) / 8
      omega
    exact Nat.eq_of_mul_eq_mul_left hpitch h

theorem Uniform.rectangular {h : Nat} (huniform : Uniform ascent pictures h) (hmem : rows ∈ pictures) :
    Rectangular rows := by
  refine ⟨fun hnil => Nat.ne_of_gt huniform.pos ?_, huniform.width rows hmem⟩
  rw [← huniform.height rows hmem, hnil]
  rfl

theorem isSome_table?_iff (hfit : ∀ rows ∈ pictures, Fits rows)
    (hheight : ∀ rows ∈ pictures, low16 rows.length = height) (hrows : ∀ rows ∈ pictures, Rectangular rows) :
    (table? name height ascent first (pictures.map packed)).isSome = true ↔ Accepted ascent pictures := by
  have hsizes : (∀ g ∈ (pictures.map packed).toArray, g.data.size = GlyphTable.bitRowSize g.width * height) ↔
      ∀ rows ∈ pictures, rows.length = height := by
    simp only [List.mem_toArray, List.forall_mem_map]
    exact forall₂_congr fun rows hmem => size_packed_eq_iff (hfit rows hmem) (hheight rows hmem)
  have hempty : (pictures.map packed).toArray ≠ #[] ↔ pictures ≠ [] := by simp
  rw [table?, GlyphTable.isSome_build?_iff, hsizes, hempty]
  constructor
  · rintro ⟨hzero, hne, hascent, hlength⟩
    refine ⟨hne, height, Nat.pos_of_ne_zero hzero, ?_, hascent, hlength, fun rows hmem => (hrows rows hmem).2⟩
    obtain ⟨rows, hmem⟩ := List.exists_mem_of_ne_nil pictures hne
    rw [← hheight rows hmem]
    exact Nat.mod_lt _ (by decide)
  · rintro ⟨hne, h, huniform⟩
    obtain ⟨rows, hmem⟩ := List.exists_mem_of_ne_nil pictures hne
    have hsame : h = height := by
      rw [← hheight rows hmem, huniform.height rows hmem]
      exact (Nat.mod_eq_of_lt huniform.lt).symm
    subst hsame
    exact ⟨Nat.ne_of_gt huniform.pos, hne, huniform.ascent, huniform.height⟩

/-! ## Pictures that are handed out -/

/-- The packed bits of a picture: whole rows, a bit for each character with ink, and clear bits behind them. -/
structure ReadsAs (rows : Rows) (bmp : GlyphBitmap) : Prop where
  pitch : bmp.pitch = (columns rows + 7) / 8
  size : bmp.data.size = bmp.pitch * rows.length
  bits : ∀ y < rows.length, ∀ x < columns rows,
    ((BitRow.ofPicture bmp.data bmp.pitch y (columns rows)).get x = true ↔ Inked rows x y)
  padding : ∀ y < rows.length, ∀ x < 8 * bmp.pitch, columns rows ≤ x → packedBit bmp.data (y * bmp.pitch) x = false

/-- The glyphs from `first` on are the pictures, and there are no others. -/
structure Shows (first : UInt32) (pictures : List Rows) (t : GlyphTable UInt8) : Prop where
  hasGlyph_iff : ∀ g, t.monoSource.hasGlyph g = true ↔
    first.toNat ≤ g.toNat ∧ g.toNat < first.toNat + pictures.length
  absent : ∀ request g, t.monoSource.hasGlyph g = false → t.monoSource.mono? request g = none
  shown : ∀ i rows, pictures[i]? = some rows → ∀ g : UInt32, g.toNat = first.toNat + i → ∀ request,
    (t.monoSource.box request g).w = columns rows ∧ (t.monoSource.box request g).h = rows.length ∧
      ∃ bmp, t.monoSource.mono? request g = some bmp ∧ ReadsAs rows bmp
  /-- The glyphs may lie one behind another in one buffer. -/
  flat : ∃ flat, FlatGlyphs.ofGlyphs? (fun width => t.rowSize width * t.height) t.glyphs.toList = some flat ∧
    ∀ i, flat.glyph? i = .ok t.glyphs[i]?

theorem readsAs_packed (hrows : Rectangular rows) (scale : Nat) :
    ReadsAs rows ⟨(packed rows).data, GlyphTable.bitRowSize (columns rows), scale⟩ := by
  have hholds := holds_packedRows (GlyphTable.bitRowSize (columns rows)) rows
  refine ⟨rfl, size_packed rows, fun y hy x hx => ?_, fun y hy x hx hwide => ?_⟩
  · have hcolumn : x / 8 < GlyphTable.bitRowSize (columns rows) := by
      rw [GlyphTable.bitRowSize]
      omega
    rw [← hholds.bit hcolumn hy, BitRow.get_iff]
    exact ⟨fun h => h.2.2, fun h => ⟨Int.natCast_nonneg x, Int.ofNat_lt.mpr hx, h⟩⟩
  · have hcolumn : x / 8 < GlyphTable.bitRowSize (columns rows) := Nat.div_lt_of_lt_mul hx
    rw [← Bool.not_eq_true]
    refine (hholds.bit hcolumn hy).not.mpr fun hink => ?_
    have hrow : rows[y]? = some rows[y] := List.getElem?_eq_getElem hy
    have hend : charAt? rows x y = none := by
      rw [charAt?, hrow, Option.bind_some, List.getElem?_eq_none]
      rw [hrows.2 _ (List.getElem_mem hy)]
      exact hwide
    simp [Inked, hend] at hink

/-- The table of packed pictures shows them. -/
theorem shows_table (hrows : ∀ rows ∈ pictures, Rectangular rows) {t : GlyphTable UInt8}
    (hheight : ∀ rows ∈ pictures, rows.length = t.height)
    (hsize : t.rowSize = GlyphTable.bitRowSize) (hscale : t.scale = 1)
    (hglyphs : t.glyphs = (pictures.map packed).toArray) : Shows t.first pictures t := by
  have hfound : ∀ {g : UInt32} {i : Nat}, g.toNat = t.first.toNat + i → t.glyph? g = pictures[i]?.map packed := by
    intro g i hg
    rw [GlyphTable.glyph?_of_toNat hg, hglyphs, List.getElem?_toArray, List.getElem?_map]
  refine ⟨fun g => ?_, fun request g hg => ?_, fun i rows hi g hg request => ?_, t.exists_flat⟩
  · change (t.glyph? g).isSome = true ↔ _
    by_cases hfirst : t.first.toNat ≤ g.toNat
    · obtain ⟨i, hi⟩ := Nat.exists_eq_add_of_le hfirst
      rw [hfound hi, Option.isSome_map, isSome_getElem?]
      omega
    · rw [GlyphTable.glyph?_of_lt (by omega)]
      simp [hfirst]
  · have hnone : t.glyph? g = none := Option.not_isSome_iff_eq_none.mp (Bool.not_eq_true _ ▸ hg)
    change (t.glyph? g).map _ = none
    rw [hnone]
    rfl
  · have hglyph : t.glyph? g = some (packed rows) := by rw [hfound hg, hi]; rfl
    have hmem : rows ∈ pictures := List.mem_of_getElem? hi
    refine ⟨?_, ?_, _, congrArg (Option.map _) hglyph, ?_⟩
    · change t.widthOf g = _
      rw [GlyphTable.widthOf, hglyph, hscale]
      exact Int.mul_one _
    · change (t.height * t.scale : Int) = _
      rw [hscale, hheight rows hmem]
      exact Int.mul_one _
    · rw [hsize]
      exact readsAs_packed (hrows rows hmem) t.scale

end Accepted

/-! ## The constructors -/

/-- The constructor ends: it refuses the pictures that are not accepted and makes a font that shows the others. -/
def Constructs (accepted : Prop) (first : UInt32) (pictures : List Rows)
    (result : Except Fault (Option (GlyphTable UInt8))) : Prop :=
  ∃ r, result = .ok r ∧ (r.isSome = true ↔ accepted) ∧ ∀ t ∈ r, Shows first pictures t

section Constructs

variable {name : String} {ascent height : Nat} {first : UInt32} {pictures : List Rows}

theorem constructs_none {accepted : Prop} (h : ¬accepted) : Constructs accepted first pictures (.ok none) :=
  ⟨none, rfl, by simp [h], fun t ht => by cases ht⟩

/-- Packed pictures that agree on the height in 16 bits make up a table unless one of them is too high. -/
theorem constructs_table (name : String) (hfit : ∀ rows ∈ pictures, Fits rows)
    (hheight : ∀ rows ∈ pictures, low16 rows.length = height) (hrows : ∀ rows ∈ pictures, Rectangular rows) :
    Constructs (Accepted ascent pictures) first pictures
      (.ok (table? name height ascent first (pictures.map packed))) := by
  refine ⟨_, rfl, isSome_table?_iff hfit hheight hrows, fun t ht => ?_⟩
  obtain ⟨rfl, rfl, hglyphs, hsize, hscale⟩ := GlyphTable.build?_eq_some_made ht
  refine shows_table hrows (fun rows hmem => ?_) hsize hscale hglyphs
  have hdata := t.size_data (packed rows) (by simpa [hglyphs] using ⟨rows, hmem, rfl⟩)
  rw [hsize] at hdata
  exact (size_packed_eq_iff (hfit rows hmem) (hheight rows hmem)).mp hdata

theorem constructs_varying (hfit : ∀ rows ∈ pictures, Fits rows) :
    Constructs (Accepted ascent pictures) first pictures (varying name ascent first pictures) := by
  cases pictures with
  | nil => exact constructs_none fun h => h.1 rfl
  | cons rows rest =>
    rw [varying, packAll_eq _ hfit]
    by_cases hall : ∀ r ∈ rows :: rest, decide (low16 r.length = low16 rows.length) = true ∧ Rectangular r
    · rw [if_pos hall]
      exact constructs_table name hfit (fun r hr => of_decide_eq_true (hall r hr).1) fun r hr => (hall r hr).2
    · rw [if_neg hall]
      refine constructs_none fun ⟨_, h, huniform⟩ => hall fun r hr => ⟨?_, huniform.rectangular hr⟩
      rw [huniform.height r hr, huniform.height rows List.mem_cons_self]
      exact decide_eq_true rfl

theorem constructs_fixed (hfit : ∀ rows ∈ pictures, Fits rows) :
    Constructs (Accepted ascent pictures ∧ ∃ w, ∀ rows ∈ pictures, columns rows = w) first pictures
      (fixed name ascent first pictures) := by
  cases pictures with
  | nil => exact constructs_none fun h => h.1.1 rfl
  | cons rows rest =>
    rw [fixed, packAll_eq _ hfit]
    by_cases hall : ∀ r ∈ rows :: rest, true = true ∧ Rectangular r
    · rw [if_pos hall]
      have hagree : (((rows :: rest).map packed).all (fun g => g.width = columns rows) &&
          (rows :: rest).all fun r => low16 r.length = low16 rows.length) = true ↔
          (∀ r ∈ rows :: rest, columns r = columns rows) ∧
            ∀ r ∈ rows :: rest, low16 r.length = low16 rows.length := by
        simp only [Bool.and_eq_true, List.all_eq_true, decide_eq_true_eq, List.forall_mem_map]
        rfl
      by_cases hsame : (∀ r ∈ rows :: rest, columns r = columns rows) ∧
          ∀ r ∈ rows :: rest, low16 r.length = low16 rows.length
      · obtain ⟨r, hr, hsome, hshows⟩ :=
          constructs_table name hfit hsame.2 fun r hr => (hall r hr).2
        refine ⟨r, ?_, hsome.trans (and_iff_left ⟨columns rows, hsame.1⟩).symm, hshows⟩
        exact (if_pos (hagree.mpr hsame)).trans hr
      · have hrefused : ¬(Accepted ascent (rows :: rest) ∧ ∃ w, ∀ r ∈ rows :: rest, columns r = w) := by
          rintro ⟨⟨-, h, huniform⟩, w, hwidth⟩
          refine hsame ⟨fun r hr => ?_, fun r hr => ?_⟩
          · rw [hwidth r hr, hwidth rows List.mem_cons_self]
          · rw [huniform.height r hr, huniform.height rows List.mem_cons_self]
        have hnone : Constructs _ first (rows :: rest) _ := constructs_none hrefused
        obtain ⟨r, hr, hsome, hshows⟩ := hnone
        exact ⟨r, (if_neg (hagree.not.mpr hsame)).trans hr, hsome, hshows⟩
    · rw [if_neg hall]
      exact constructs_none fun ⟨⟨_, h, huniform⟩, _⟩ => hall fun r hr => ⟨rfl, huniform.rectangular hr⟩

/-- Pictures whose sides fit into 16 bits are packed as the loop packs them, and each constructor either
refuses them or makes the font that reads back as they were drawn. -/
theorem constructors_show (name : String) (ascent : Nat) (first : UInt32) (pictures : List Rows)
    (hfit : ∀ rows ∈ pictures, Fits rows) :
    (∀ rows ∈ pictures, pack rows = packLoop rows) ∧
      Constructs (Accepted ascent pictures) first pictures (varying name ascent first pictures) ∧
      Constructs (Accepted ascent pictures ∧ ∃ w, ∀ rows ∈ pictures, columns rows = w) first pictures
        (fixed name ascent first pictures) :=
  ⟨fun rows _ => pack_eq_packLoop rows, constructs_varying hfit, constructs_fixed hfit⟩

/-- Two pictures of two rows, of which the second one is wider. -/
theorem constructors_show_two :
    let pictures : List Rows := [[['#', '.'], ['.', 'X']], [['.', '#', '#'], ['X', '.', '.']]]
    (∀ rows ∈ pictures, Fits rows) ∧ (∃ t, varying "two" 1 65 pictures = .ok (some t) ∧ Shows 65 pictures t) ∧
      fixed "two" 1 65 pictures = .ok none := by
  intro pictures
  have hfit : ∀ rows ∈ pictures, Fits rows := by decide
  obtain ⟨-, ⟨r, hr, hsome, hshows⟩, ⟨r', hr', hsome', -⟩⟩ := constructors_show "two" 1 65 pictures hfit
  have haccepted : Accepted 1 pictures :=
    ⟨by decide, 2, by decide, by decide, by decide, by decide, by decide⟩
  obtain ⟨t, rfl⟩ := Option.isSome_iff_exists.mp (hsome.mpr haccepted)
  have hnone : r' = none := by
    refine Option.not_isSome_iff_eq_none.mp fun h => ?_
    obtain ⟨-, w, hwidth⟩ := hsome'.mp h
    exact absurd ((hwidth _ (by decide)).trans (hwidth _ (by decide)).symm)
      (show columns [['#', '.'], ['.', 'X']] ≠ columns [['.', '#', '#'], ['X', '.', '.']] by decide)
  exact ⟨hfit, ⟨t, hr, hshows t rfl⟩, hr'.trans (hnone ▸ rfl)⟩

/-- A picture whose number of columns is none in 16 bits has no byte for the ink at its left. -/
theorem pack_fault (row : List Char) (hwidth : low16 ('#' :: row).length = 0) :
    pack ['#' :: row] = .error .outOfRange := by
  have hset : setRow (0 * GlyphTable.bitRowSize 0) #[] ('#' :: row) = .error .outOfRange := by
    rw [setRow, List.zipIdx_cons, List.foldlM_cons]
    rfl
  rw [pack_eq_packLoop]
  simp only [packLoop, hwidth]
  rw [setRows, if_pos rfl]
  exact congrArg (· >>= _) (congrArg (· >>= _) hset)

/-- A row of 65536 characters is neither refused nor made into a glyph. -/
theorem constructors_fault_wide :
    varying "wide" 1 0 [[List.replicate 65536 '#']] = .error .outOfRange ∧
      fixed "wide" 1 0 [[List.replicate 65536 '#']] = .error .outOfRange := by
  have hpack : pack [List.replicate 65536 '#'] = .error .outOfRange := by
    rw [List.replicate_succ]
    exact pack_fault _ (by rw [List.length_cons, List.length_replicate]; rfl)
  constructor
  · simp only [varying, packAll, hpack]
    rfl
  · simp only [fixed, packAll, hpack]
    rfl

end Constructs

end Rasterizer.Picture
