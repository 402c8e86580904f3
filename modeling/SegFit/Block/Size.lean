/-
  The sizes a block can have.  A block is its payload between two four-byte tags; its size
  is a multiple of eight, at least sixteen (two tags and two links), and fits in a word
  whose three low bits are free for other use.
-/
import SegFit.Fault

namespace SegFit

/-- Bytes of a tag or a link. -/
abbrev wordSize : Nat := 4

/-- Bytes of a block's two tags. -/
abbrev overhead : Nat := 8

/-- Every payload offset and every block size is a multiple of this. -/
abbrev alignment : Nat := 8

/-- The least block: two tags and two links. -/
abbrev minBlock : Nat := 16

/-- The largest multiple of eight that a word holds. -/
abbrev maxBlock : Nat := 0xFFFFFFF8

/-- The largest value of a word, and the largest extent that links can address. -/
abbrev maxWord : Nat := 0xFFFFFFFF

/-- The least multiple of eight at or above `n`, if the sum stays an offset. -/
def alignUp (n : Nat) : Option Nat :=
  if n + (alignment - 1) < offsetBound then some ((n + (alignment - 1)) / alignment * alignment)
  else none

/-- The size of the block that serves a request of `n` payload bytes, if a tag can hold it. -/
def blockSizeFor (n : Nat) : Option Nat :=
  (alignUp n).bind fun payload =>
    if payload + overhead ≤ maxBlock then some (max (payload + overhead) minBlock) else none

end SegFit
