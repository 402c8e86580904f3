/-
  The operations of an allocator.  After each of them, refused or not, the heap is verified
  if the settings ask for it.
-/
import SegFit.Allocator.Steps
import SegFit.Allocator.Verify

namespace SegFit.Allocator

/-- Verifies the heap after an operation if the settings ask for it. -/
def settle {α : Type} (x : Except Fault (Reply α)) : Except Stop (Reply α) := do
  let (result, a) ← lift x
  let a ← if a.settings.verifyAlways then a.verify else pure a
  return (result, a)

/-- Allocates at least `n` bytes; none if `n = 0`. -/
def allocate (a : Allocator) (n : Nat) : Except Stop (Reply (Option Nat)) :=
  settle (a.serve "malloc" n)

/-- Sets the payload of the block at `ptr` to zero bytes. -/
def clear (a : Allocator) (ptr : Nat) : Except Fault Allocator := do
  let usable ← difference (← a.heap.mem.blockSize ptr) overhead
  let mem ← a.heap.mem.fill ptr usable fun _ => 0
  return { a with heap := { a.heap with mem } }

/-- Serves a request of `n` bytes with zero bytes in them. -/
def serveZeroed (a : Allocator) (n : Nat) : Except Fault (Reply (Option Nat)) := do
  match ← a.serve "calloc" n with
  | (.ok (some ptr), a) => return (.ok (some ptr), ← a.clear ptr)
  | reply => return reply

/-- Allocates `count` times `size` bytes, all zero. -/
def allocateZeroed (a : Allocator) (count size : Nat) : Except Stop (Reply (Option Nat)) :=
  if count * size < offsetBound then settle (a.serveZeroed (count * size))
  else .ok (.error (.sizeOverflow count size), a.note (.sizeOverflow count size))

/-- Frees the allocation at `ptr`. -/
def release (a : Allocator) (ptr : Nat) : Except Stop (Reply Unit) :=
  settle (a.free "free" ptr)

/-- Changes the size of the allocation at `ptr` to at least `n` bytes. -/
def resize (a : Allocator) (ptr : Option Nat) (n : Nat) : Except Stop (Reply (Option Nat)) :=
  settle (a.change ptr n)

/-- The blocks of the heap. -/
def blocks (a : Allocator) : Except Fault (List Block) :=
  a.heap.blocks

/-- The figures on the heap. -/
def occupancy (a : Allocator) : Except Fault Occupancy :=
  a.heap.occupancy

/-- Takes the records out of the journal. -/
def drain (a : Allocator) : List Record × Allocator :=
  let (records, journal) := a.journal.drain
  (records, { a with journal })

end SegFit.Allocator
