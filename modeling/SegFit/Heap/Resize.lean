/-
  Changing the size of an allocated block where it is.  Only the block after it is ever
  absorbed: taking in the one before would move the payload.
-/
import SegFit.Heap.Acquire

namespace SegFit

/-- What a change of size did to a block of `old` bytes. -/
inductive Resized where
  /-- It was cut or took in its free successor, and has `new` bytes now. -/
  | inPlace (old new : Nat)
  /-- It was the last block; it took in `absorbed` bytes and the heap grew. -/
  | grown (old absorbed growth : Nat)
  /-- It cannot become large enough where it is, and nothing has changed. -/
  | mustMove (old : Nat)
  deriving DecidableEq, Repr

/-- The room for a block: its free successor, the bytes of both, and whether they reach the
end of the heap. -/
structure Room where
  absorbed : Option Nat
  total : Nat
  isLast : Bool
  deriving DecidableEq, Repr

namespace Memory

/-- The room for the block of `size` bytes at `block`. -/
def room (m : Memory) (block size : Nat) : Except Fault Room := do
  match ← m.tagOf (block + size) with
  | none => return ⟨none, size, true⟩
  | some next =>
    if next.isFree then
      let after ← m.tagOf (block + size + next.size)
      return ⟨some (block + size), size + next.size, after.isNone⟩
    else return ⟨none, size, false⟩

end Memory

namespace Heap

/-- Gives the block at `block` a size of at least `size` bytes, if that is possible where it
is. -/
def resize (h : Heap) (limit block size : Nat) :
    Except Fault (Except Exhausted Resized × Heap) := do
  let old ← h.mem.blockSize block
  let room ← h.mem.room block old
  if size ≤ room.total then
    let h ← h.removeAny room.absorbed
    let (placed, m) ← h.mem.carve block room.total size
    return (.ok (.inPlace old placed), { h with mem := m })
  else if room.isLast then
    let (result, h) ← h.stretch limit block size room.absorbed
    return (result.map (.grown old (room.total - old) ·), h)
  else return (.ok (.mustMove old), h)

end Heap

end SegFit
