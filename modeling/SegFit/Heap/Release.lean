/-
  Giving a block back.  The freed block is merged at once with each neighbour that is free,
  so that no two free blocks are adjacent, and goes to the front of its bucket's list.
-/
import SegFit.Heap.Lists

namespace SegFit

/-- The neighbours that a freed block was merged with. -/
inductive Merge where
  | none
  | next
  | prev
  | both
  deriving DecidableEq, Repr

/-- What a release did: the bytes freed, the free block they became part of, its merge. -/
structure Release where
  freed : Nat
  block : Nat
  size : Nat
  merge : Merge
  deriving DecidableEq, Repr

namespace Memory

/-- The tag if it is that of a free block. -/
def freeTag (tag : Option Tag) : Option Tag :=
  tag.filter Tag.isFree

/-- Takes the free neighbours of the region of `size` bytes at `block` off their lists and
gives the union of the regions. -/
def mergeFree (m : Memory) (block size : Nat) (prev next : Option Tag) :
    Except Fault ((Nat × Nat × Merge) × Memory) := do
  match prev, next with
  | some prev, some next =>
    let start ← difference block prev.size
    let m ← m.unlink start
    let m ← m.unlink (block + size)
    return ((start, size + (prev.size + next.size), .both), m)
  | none, some next =>
    let m ← m.unlink (block + size)
    return ((block, size + next.size, .next), m)
  | some prev, none =>
    let start ← difference block prev.size
    let m ← m.unlink start
    return ((start, size + prev.size, .prev), m)
  | none, none => return ((block, size, .none), m)

/-- Frees the block at `block`. -/
def release (m : Memory) (block : Nat) : Except Fault (Release × Memory) := do
  let freed ← m.blockSize block
  let m ← m.setTags block freed .free
  let prev ← m.tagBefore block
  let next ← m.tagOf (block + freed)
  let ((start, size, merge), m) ← m.mergeFree block freed (freeTag prev) (freeTag next)
  let m ← m.setTags start size .free
  let m ← m.pushFree start size
  return (⟨freed, start, size, merge⟩, m)

end Memory

namespace Heap

/-- Frees the block at `block`. -/
def release (h : Heap) (block : Nat) : Except Fault (Release × Heap) := do
  let (done, m) ← h.mem.release block
  return (done, { h with mem := m })

end Heap

end SegFit
