import Rasterizer.Proofs.Region.Algebra

/-! # Equal sets of pixels, equal regions

Along a line the stretches of equal label are known from the labels of the places alone, when no two
stretches that touch have the same one (`Labelled.ext`). The intervals of a row are such stretches, and
so are the bands of a region, labelled with their columns. A region is therefore known from its pixels
(`Built.ext`), and the laws of sets are laws of regions (`Term.eval_eq_iff_pixels`). -/

namespace Rasterizer.Region

/-! ## Labelled stretches -/

section Labels

variable {α : Type} {a : Interval × α} {segs segs' : List (Interval × α)} {k : Int} {label : α}

/-- Stretches one behind another, of which two that touch have different labels. -/
structure Labelled (segs : List (Interval × α)) : Prop where
  nonempty : ∀ s ∈ segs, s.1.1 < s.1.2
  sorted : segs.Pairwise fun s t => s.1.2 ≤ t.1.1 ∧ (s.1.2 = t.1.1 → s.2 ≠ t.2)

/-- The place lies in a stretch of that label. -/
def HasLabel (segs : List (Interval × α)) (k : Int) (label : α) : Prop :=
  ∃ s ∈ segs, (s.1.1 ≤ k ∧ k < s.1.2) ∧ s.2 = label

theorem hasLabel_cons :
    HasLabel (a :: segs) k label ↔ ((a.1.1 ≤ k ∧ k < a.1.2) ∧ a.2 = label) ∨ HasLabel segs k label := by
  simp only [HasLabel, List.mem_cons, exists_eq_or_imp]

theorem Labelled.tail (h : Labelled (a :: segs)) : Labelled segs :=
  ⟨fun s hs => h.nonempty s (List.mem_cons_of_mem a hs), (List.pairwise_cons.mp h.sorted).2⟩

theorem Labelled.head_nonempty (h : Labelled (a :: segs)) : a.1.1 < a.1.2 :=
  h.nonempty a List.mem_cons_self

theorem Labelled.hasLabel_head (h : Labelled (a :: segs)) : HasLabel (a :: segs) a.1.1 a.2 :=
  ⟨a, List.mem_cons_self, ⟨Int.le_refl _, h.head_nonempty⟩, rfl⟩

/-- The labels after the first stretch begin where it ends. -/
theorem Labelled.end_le (h : Labelled (a :: segs)) (hk : HasLabel segs k label) : a.1.2 ≤ k := by
  obtain ⟨s, hs, ⟨hsk, -⟩, -⟩ := hk
  exact Int.le_trans ((List.pairwise_cons.mp h.sorted).1 s hs).1 hsk

theorem Labelled.begin_le (h : Labelled (a :: segs)) (hk : HasLabel (a :: segs) k label) : a.1.1 ≤ k := by
  rcases hasLabel_cons.mp hk with ⟨⟨hle, -⟩, -⟩ | hk
  · exact hle
  · exact Int.le_trans (Int.le_of_lt h.head_nonempty) (h.end_le hk)

/-- Where the first stretch ends, another label begins or none. -/
theorem Labelled.not_hasLabel_end (h : Labelled (a :: segs)) : ¬HasLabel (a :: segs) a.1.2 a.2 := by
  intro hend
  rcases hasLabel_cons.mp hend with ⟨⟨-, hlt⟩, -⟩ | ⟨s, hs, ⟨hsk, -⟩, hlabel⟩
  · exact Int.lt_irrefl _ hlt
  · obtain ⟨hle, htouch⟩ := (List.pairwise_cons.mp h.sorted).1 s hs
    exact htouch (Int.le_antisymm hle hsk) hlabel.symm

theorem Labelled.label_head (h : Labelled (a :: segs)) (hk : HasLabel (a :: segs) a.1.1 label) :
    a.2 = label := by
  rcases hasLabel_cons.mp hk with ⟨-, hlabel⟩ | hk
  · exact hlabel
  · exact absurd (h.end_le hk) (Int.not_le.mpr h.head_nonempty)

/-- Of two lists with the same labels the first stretch of the one begins and ends no later. -/
theorem Labelled.head_le {b : Interval × α} (h : Labelled (a :: segs)) (h' : Labelled (b :: segs'))
    (hsame : ∀ k label, HasLabel (a :: segs) k label ↔ HasLabel (b :: segs') k label) :
    a.1.1 ≤ b.1.1 ∧ (a.1.1 = b.1.1 → a.2 = b.2 ∧ a.1.2 ≤ b.1.2) := by
  refine ⟨h.begin_le ((hsame _ _).mpr h'.hasLabel_head), fun hbegin => ?_⟩
  have hlabel : a.2 = b.2 := h.label_head (hbegin ▸ (hsame _ _).mpr h'.hasLabel_head)
  refine ⟨hlabel, Int.not_lt.mp fun hlt => h'.not_hasLabel_end ?_⟩
  have hnonempty := h'.head_nonempty
  exact (hsame _ _).mp (hasLabel_cons.mpr (.inl ⟨⟨by omega, hlt⟩, hlabel⟩))

theorem Labelled.tail_same {b : Interval × α} (h : Labelled (a :: segs)) (hend : a.1.2 = b.1.2)
    (hsame : ∀ k label, HasLabel (a :: segs) k label ↔ HasLabel (b :: segs') k label)
    (hk : HasLabel segs k label) : HasLabel segs' k label := by
  have hle := h.end_le hk
  rcases hasLabel_cons.mp ((hsame k label).mp (hasLabel_cons.mpr (.inr hk))) with ⟨⟨-, hlt⟩, -⟩ | hk
  · omega
  · exact hk

/-- The labels of the places determine the stretches. -/
theorem Labelled.ext (h : Labelled segs) (h' : Labelled segs')
    (hsame : ∀ k label, HasLabel segs k label ↔ HasLabel segs' k label) : segs = segs' := by
  induction segs generalizing segs' with
  | nil =>
    cases segs' with
    | nil => rfl
    | cons b segs' =>
      obtain ⟨_, hmem, -⟩ := (hsame _ _).mpr h'.hasLabel_head
      cases hmem
  | cons a segs ih =>
    cases segs' with
    | nil =>
      obtain ⟨_, hmem, -⟩ := (hsame _ _).mp h.hasLabel_head
      cases hmem
    | cons b segs' =>
      have hsame' := fun k label => (hsame k label).symm
      obtain ⟨hle, hends⟩ := h.head_le h' hsame
      obtain ⟨hle', hends'⟩ := h'.head_le h hsame'
      have hbegin : a.1.1 = b.1.1 := Int.le_antisymm hle hle'
      have hend : a.1.2 = b.1.2 := Int.le_antisymm (hends hbegin).2 (hends' hbegin.symm).2
      have htail : segs = segs' := ih h.tail h'.tail fun k label =>
        ⟨h.tail_same hend hsame, h'.tail_same hend.symm hsame'⟩
      rw [htail, show a = b from Prod.ext (Prod.ext hbegin hend) (hends hbegin).1]

end Labels

/-! ## Rows -/

theorem Gapped.labelled {row : List Interval} (h : Gapped row) :
    Labelled (row.map fun iv => (iv, ())) where
  nonempty s hs := by
    obtain ⟨iv, hiv, rfl⟩ := List.mem_map.mp hs
    exact h.nonempty iv hiv
  sorted := List.pairwise_map.mpr (h.sorted.imp fun hgap =>
    ⟨Int.le_of_lt hgap, fun htouch => absurd htouch (Int.ne_of_lt hgap)⟩)

theorem hasLabel_row {row : List Interval} {x : Int} :
    HasLabel (row.map fun iv => (iv, ())) x () ↔ covered row x = true := by
  rw [covered_iff]
  constructor
  · rintro ⟨s, hs, hx, -⟩
    obtain ⟨iv, hiv, rfl⟩ := List.mem_map.mp hs
    exact ⟨iv, hiv, hx⟩
  · rintro ⟨iv, hiv, hx⟩
    exact ⟨_, List.mem_map_of_mem hiv, hx, rfl⟩

/-- A row with gaps is known from its columns. -/
theorem Gapped.ext {row row' : List Interval} (h : Gapped row) (h' : Gapped row')
    (hsame : ∀ x, covered row x = true ↔ covered row' x = true) : row = row' := by
  have hinj : Function.Injective fun iv : Interval => (iv, ()) := fun _ _ he => congrArg Prod.fst he
  refine List.map_injective_iff.mpr hinj (h.labelled.ext h'.labelled fun x _ => ?_)
  exact hasLabel_row.trans ((hsame x).trans hasLabel_row.symm)

theorem Band.Sound.exists_covered {b : Band} (h : b.Sound) : ∃ x, covered b.row x = true := by
  obtain ⟨iv, hiv⟩ := List.exists_mem_of_ne_nil _ h.columns
  exact ⟨iv.1, covered_iff.mpr ⟨iv, hiv, Int.le_refl _, h.gapped.nonempty iv hiv⟩⟩

/-! ## Bands -/

/-- The rows of a band, labelled with its columns. -/
def Band.labelled (b : Band) : Interval × List Interval := ((b.top, b.bottom), b.row)

theorem Band.labelled_injective : Function.Injective Band.labelled := by
  rintro ⟨top, bottom, row⟩ ⟨top', bottom', row'⟩ h
  injection h with hrows hrow
  injection hrows with htop hbottom
  subst htop hbottom hrow
  rfl

section Stacked

variable {bands bands' : List Band} {b d : Band} {x y : Int}

theorem Stacked.labelled (h : Stacked bands) : Labelled (bands.map Band.labelled) where
  nonempty s hs := by
    obtain ⟨b, hb, rfl⟩ := List.mem_map.mp hs
    exact (h.sound b hb).rows
  sorted := List.pairwise_map.mpr h.sorted

/-- A row lies in one band only. -/
theorem Stacked.eq_of_row (h : Stacked bands) (hb : b ∈ bands) (hd : d ∈ bands)
    (hby : b.top ≤ y ∧ y < b.bottom) (hdy : d.top ≤ y ∧ y < d.bottom) : b = d := by
  have hpairs : bands.Pairwise fun b d =>
      (b.top ≤ y ∧ y < b.bottom) → (d.top ≤ y ∧ y < d.bottom) → b = d := by
    refine h.sorted.imp fun {b d} hbd hby hdy => ?_
    have := hbd.1
    omega
  exact List.Pairwise.forall_of_forall_of_flip (fun _ _ _ _ => rfl) hpairs
    (hpairs.imp fun h hdy hby => (h hby hdy).symm) hb hd hby hdy

/-- In a row of a band the pixels are those of its columns. -/
theorem Stacked.holds_iff (h : Stacked bands) (hb : b ∈ bands) (hby : b.top ≤ y ∧ y < b.bottom) :
    (∃ d ∈ bands, d.Holds x y) ↔ covered b.row x = true := by
  constructor
  · rintro ⟨d, hd, hdy, hx⟩
    rwa [h.eq_of_row hb hd hby hdy]
  · exact fun hx => ⟨b, hb, hby, hx⟩

/-- Bands with the same pixels hold the same columns in each row. -/
theorem Stacked.hasLabel_of_same (h : Stacked bands) (h' : Stacked bands')
    (hsame : ∀ x y, (∃ d ∈ bands, d.Holds x y) ↔ ∃ d ∈ bands', d.Holds x y) {row : List Interval}
    (hrow : HasLabel (bands.map Band.labelled) y row) : HasLabel (bands'.map Band.labelled) y row := by
  obtain ⟨s, hs, hby, rfl⟩ := hrow
  obtain ⟨b, hb, rfl⟩ := List.mem_map.mp hs
  obtain ⟨x, hx⟩ := (h.sound b hb).exists_covered
  obtain ⟨d, hd, hdy, -⟩ := (hsame x y).mp ⟨b, hb, hby, hx⟩
  refine ⟨d.labelled, List.mem_map_of_mem hd, hdy, ?_⟩
  refine (h'.sound d hd).gapped.ext (h.sound b hb).gapped fun x => ?_
  rw [← h'.holds_iff hd hdy, ← hsame]
  exact h.holds_iff hb hby

theorem Stacked.ext (h : Stacked bands) (h' : Stacked bands')
    (hsame : ∀ x y, (∃ d ∈ bands, d.Holds x y) ↔ ∃ d ∈ bands', d.Holds x y) : bands = bands' :=
  List.map_injective_iff.mpr Band.labelled_injective (h.labelled.ext h'.labelled fun _ _ =>
    ⟨h.hasLabel_of_same h' hsame, h'.hasLabel_of_same h fun x y => (hsame x y).symm⟩)

end Stacked

/-! ## Regions -/

/-- A region is known from its pixels. -/
theorem Built.ext {a b : Region} (ha : Built a) (hb : Built b)
    (hsame : ∀ x y, a.contains x y = true ↔ b.contains x y = true) : a = b := by
  obtain ⟨bands, hbands, rfl⟩ := ha
  obtain ⟨bands', hbands', rfl⟩ := hb
  have : bands = bands' := hbands.ext hbands' fun x y => by
    rw [← anyContains_flatMap_rects, ← anyContains_flatMap_rects]
    have hxy := hsame x y
    rwa [hbands.banded.contains_eq, hbands'.banded.contains_eq] at hxy
  rw [this]

namespace Term

theorem eval_eq_iff_contains (e f : Term) :
    e.eval = f.eval ↔ ∀ x y, e.eval.contains x y = f.eval.contains x y := by
  refine ⟨fun h _ _ => by rw [h], fun h => e.built_eval.ext f.built_eval fun x y => ?_⟩
  rw [h]

/-- Terms make the same region just when they stand for the same pixels. -/
theorem eval_eq_iff_pixels (e f : Term) : e.eval = f.eval ↔ e.pixels = f.pixels := by
  rw [eval_eq_iff_contains, Set.ext_iff]
  constructor
  · intro h p
    rw [← e.contains_eval, ← f.contains_eval, h]
  · intro h x y
    rw [Bool.eq_iff_iff, e.contains_eval, f.contains_eval]
    exact h ⟨x, y⟩

theorem contains_beyondRight (x y : Int) : beyondRight.run.contains x y = false := by
  rw [Bool.eq_false_iff]
  intro hxy
  have hrects : beyondRight.run.rects = [⟨2147483642, 0, -2147483644, 10⟩] := by decide
  have hany := anyContains_of_contains hxy
  simp only [hrects, anyContains_iff, List.mem_singleton, exists_eq_left, Rect.contains_iff] at hany
  omega

end Term

end Rasterizer.Region
