/-! Rows of packed bits, the highest bit of each byte first, and their runs. Bits that
the data does not hold read as clear. -/

namespace Rasterizer

/-- Bit `x` of packed data, counted from the highest bit of the byte at `start`. -/
def packedBit (data : Array UInt8) (start x : Nat) : Bool :=
  (data.getD (start + x / 8) 0).toNat.testBit (7 - x % 8)

structure BitRow where
  data : Array UInt8
  /-- The byte that holds the first bit. -/
  start : Nat
  width : Nat

/-- Runs of equal values and their lengths. -/
def runLengths : List Bool → List (Bool × Nat)
  | [] => []
  | b :: bs =>
    match runLengths bs with
    | (c, n) :: rest => if b = c then (c, n + 1) :: rest else (b, 1) :: (c, n) :: rest
    | [] => [(b, 1)]

theorem pos_of_mem_runLengths {bs : List Bool} {r : Bool × Nat} (h : r ∈ runLengths bs) : 0 < r.2 := by
  fun_induction runLengths bs with
  | case1 => cases h
  | case2 bs c n rest heq ih =>
    rcases List.mem_cons.mp h with rfl | h
    · exact Nat.succ_pos n
    · exact ih (heq ▸ List.mem_cons_of_mem _ h)
  | case3 b bs c n rest heq hne ih =>
    rcases List.mem_cons.mp h with rfl | h
    · exact Nat.one_pos
    · exact ih (heq ▸ h)
  | case4 b bs heq ih => simp_all

namespace BitRow

def empty : BitRow := ⟨#[], 0, 0⟩

/-- Row `i` of a picture with that many bytes a row; a negative width counts as zero. -/
def ofPicture (data : Array UInt8) (pitch i : Nat) (width : Int) : BitRow :=
  ⟨data, i * pitch, width.toNat⟩

/-- The bit at `x`, clear outside the row. -/
def get (r : BitRow) (x : Int) : Bool :=
  0 ≤ x && x < (r.width : Int) && packedBit r.data r.start x.toNat

def bits (r : BitRow) : List Bool := (List.range r.width).map fun x : Nat => r.get x

def runs (r : BitRow) : List (Bool × Nat) := runLengths r.bits

end BitRow

/-- The bytes that a row of so many bits takes. -/
def bitPitch (width : Int) : Nat := (width.toNat + 7) / 8

/-- The byte with the bits `f 0` to `f 7`, the highest first. -/
def packByte (f : Nat → Bool) : UInt8 :=
  UInt8.ofNat ((List.range 8).foldl (fun v i => 2 * v + (f i).toNat) 0)

/-- The packed rows of a picture given bit by bit. -/
def packBits (pitch rows : Nat) (bit : Nat → Nat → Bool) : Array UInt8 :=
  Array.ofFn fun i : Fin (pitch * rows) =>
    packByte fun k => bit (i.val % pitch * 8 + k) (i.val / pitch)

theorem size_packBits (pitch rows : Nat) (bit : Nat → Nat → Bool) :
    (packBits pitch rows bit).size = pitch * rows := by simp [packBits]

end Rasterizer
