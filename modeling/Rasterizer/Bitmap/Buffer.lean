/-! Buffers that are kept and filled again. What a buffer held before is dropped when it is filled. -/

namespace Rasterizer.Buffer

variable {α : Type}

/-- The buffer with `n` elements; those that it lacks are `v`. -/
def resize (buffer : Array α) (n : Nat) (v : α) : Array α :=
  buffer.take n ++ Array.replicate (n - buffer.size) v

/-- The buffer emptied and given `n` clear bytes. -/
def reset (buffer : Array UInt8) (n : Nat) : Array UInt8 := resize (buffer.take 0) n 0

/-- The buffer emptied and given a copy of `source`. -/
def load (buffer source : Array α) : Array α := buffer.take 0 ++ source

end Rasterizer.Buffer
