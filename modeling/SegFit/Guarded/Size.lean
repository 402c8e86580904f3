/-
  The arithmetic of sizes on offsets of 64 bits.  A sum wraps around, and is given up where it
  does; a size is rounded by a mask; and the bucket of a size comes from the number of zero bits
  above its highest one, by a difference that has to exist.
-/
import SegFit.Block.Size
import SegFit.Bucket

namespace SegFit

/-- The bits of an offset. -/
abbrev offsetBits : Nat := 64

/-- The sum of two offsets, if it does not wrap around. -/
def addOffsets (m n : UInt64) : Option UInt64 :=
  if m + n < m then none else some (m + n)

/-- Clears the bits below the alignment. -/
def roundDown (n : UInt64) : UInt64 :=
  n &&& ~~~(.ofNat alignment - 1)

/-- The least multiple of eight at or above `n`, if the sum does not wrap around. -/
def guardedAlignUp (n : UInt64) : Option UInt64 :=
  (addOffsets n (.ofNat alignment - 1)).map roundDown

/-- The size of the block that serves a request of `n` payload bytes, if a tag can hold it. -/
def guardedBlockSizeFor (n : UInt64) : Option UInt64 := do
  let size ← addOffsets (← guardedAlignUp n) (.ofNat overhead)
  if size ≤ roundDown (.ofNat maxWord) then some (max size (.ofNat minBlock)) else none

namespace Bucket

/-- The number of zero bits above the highest one. -/
def leadingZeros (n : UInt64) : Nat :=
  n.toBitVec.clz.toNat

/-- The bucket of a block of `size` bytes; sizes below 16 go to the first bucket. -/
def guardedOfSize (size : UInt64) : Except Fault Nat := do
  if size = 0 then return 0
  else
    let log ← difference (offsetBits - 1) (leadingZeros size)
    return min (log - 4) (count - 1)

/-- The least block size that belongs to bucket `b`, zero when there is no such bucket. -/
def guardedFloor (b : Nat) : Except Fault UInt64 :=
  if b < count then
    if 4 + b < offsetBits then .ok ((1 : UInt64) <<< .ofNat (4 + b)) else .error .overflow
  else .ok 0

end Bucket

end SegFit
