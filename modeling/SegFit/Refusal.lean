/-
  Why an allocator operation is refused.
-/
import SegFit.Arena
import SegFit.Text.Hex

namespace SegFit

/-- The refusals of allocator operations. -/
inductive Refusal where
  /-- The arena did not grow. -/
  | outOfMemory (cause : Exhausted)
  /-- No tag can describe a block for `size` bytes. -/
  | requestTooLarge (size : Nat)
  /-- The product of `count` and `size` is no offset. -/
  | sizeOverflow (count size : Nat)
  /-- A heap was to be laid out in an arena that holds bytes already. -/
  | arenaInUse (size : Nat)
  /-- No allocated block begins at `ptr`. -/
  | invalidPointer (ptr : Nat)
  /-- The block at `ptr` is free already. -/
  | doubleFree (ptr : Nat)
  deriving DecidableEq, Repr

/-- The wording of a refusal. -/
def Refusal.message : Refusal → String
  | .outOfMemory cause => s!"out of memory: {cause.message}"
  | .requestTooLarge size => s!"request of {size} bytes does not fit in a block"
  | .sizeOverflow count size => s!"element count {count} x size {size} overflows"
  | .arenaInUse size =>
    s!"arena already holds {size} bytes; the allocator needs an empty arena"
  | .invalidPointer ptr => s!"pointer {hex ptr} does not address a live allocation"
  | .doubleFree ptr => s!"pointer {hex ptr} was already released"

end SegFit
