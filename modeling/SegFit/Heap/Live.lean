/-
  Which pointers address a live allocation.  The test looks at the two tags that would
  belong to the block, and at nothing else.
-/
import SegFit.Heap.Basic
import SegFit.Refusal

namespace SegFit

namespace Heap

/-- The size of the allocated block at `ptr`, or why there is none: the offset lies among
the blocks and is aligned, the header describes a block inside the heap, the footer repeats
the header, and the block is not free. -/
def liveSize (h : Heap) (ptr : Nat) : Except Fault (Except Refusal Nat) := do
  if ptr < firstBlock ∨ h.epilog ≤ ptr ∨ ptr % alignment ≠ 0 then
    return .error (.invalidPointer ptr)
  else match ← h.mem.tagOf ptr with
  | none => return .error (.invalidPointer ptr)
  | some tag =>
    if tag.size < minBlock ∨ h.epilog < ptr - wordSize + tag.size then
      return .error (.invalidPointer ptr)
    else
      let footerWord ← h.mem.readWord (← footer ptr tag.size)
      if footerWord ≠ tag.word then return .error (.invalidPointer ptr)
      else match tag.status with
      | .allocated => return .ok tag.size
      | .free => return .error (.doubleFree ptr)

end Heap

end SegFit
