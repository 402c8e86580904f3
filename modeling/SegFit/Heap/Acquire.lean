/-
  Taking a block.  A request is met by the block that first fit chooses, split when the rest
  can stand alone; when nothing fits, the heap grows by exactly what is missing, the last
  block being extended if it is free.
-/
import SegFit.Heap.Lists
import SegFit.Arena

namespace SegFit

namespace Memory

/-- Allocates `size` bytes at the front of the region of `total` bytes at `block`.  A rest
that can stand alone becomes a free block, a smaller one stays with the allocation.  Gives
the size placed. -/
def carve (m : Memory) (block total size : Nat) : Except Fault (Nat × Memory) := do
  let rest ← difference total size
  if minBlock ≤ rest then
    let m ← m.setTags block size .allocated
    let m ← m.setTags (block + size) rest .free
    let m ← m.pushFree (block + size) rest
    return (size, m)
  else
    let m ← m.setTags block total .allocated
    return (total, m)

end Memory

/-- How a request was met. -/
inductive Grant where
  /-- From a free block of `found` bytes, of which `placed` were taken. -/
  | reused (block found placed : Nat)
  /-- By growing the heap, after the free last block or after all blocks. -/
  | grown (block growth : Nat) (extendsLast : Bool)
  deriving DecidableEq, Repr

namespace Grant

/-- The block that was granted. -/
def block : Grant → Nat
  | .reused block .. => block
  | .grown block .. => block

/-- The bytes that the block has, when `size` bytes were asked for. -/
def placed (size : Nat) : Grant → Nat
  | .reused _ _ placed => placed
  | .grown .. => size

end Grant

namespace Heap

/-- The refusal to grow by `n` bytes, if it is refused: links must reach all of the heap,
and the arena has its limit. -/
def growthRefusal (h : Heap) (limit n : Nat) : Option Exhausted :=
  if h.size + n ≤ maxWord then SegFit.growthRefusal h.size limit n
  else some ⟨n, h.size, maxWord⟩

/-- Makes the region at `block`, which ends at the epilog header, an allocated block of
exactly `size` bytes by growing the heap; `absorbed` is the free block in that region, if
there is one.  Gives the growth; when it is refused, nothing has changed. -/
def stretch (h : Heap) (limit block size : Nat) (absorbed : Option Nat) :
    Except Fault (Except Exhausted Nat × Heap) := do
  let span ← difference (h.epilog + wordSize) block
  let growth ← difference size span
  match h.growthRefusal limit growth with
  | some cause => return (.error cause, h)
  | none =>
    let h ← (h.extend growth).removeAny absorbed
    let h ← h.moveEpilog growth
    let m ← h.mem.setTags block size .allocated
    return (.ok growth, { h with mem := m })

/-- Where a block grown at the end begins, and whether that is the free last block. -/
def growthPoint (h : Heap) : Except Fault (Nat × Bool) := do
  match ← h.mem.tagAt (← difference h.epilog wordSize) with
  | some last =>
    if last.isFree then return (← difference (h.epilog + wordSize) last.size, true)
    else return (h.epilog + wordSize, false)
  | none => return (h.epilog + wordSize, false)

/-- Allocates a block of `size` bytes. -/
def acquire (h : Heap) (limit size : Nat) :
    Except Fault (Except Exhausted Grant × Heap) := do
  match ← h.firstFit size with
  | some block =>
    let found ← h.mem.blockSize block
    let h ← h.remove block
    let (placed, m) ← h.mem.carve block found size
    return (.ok (.reused block found placed), { h with mem := m })
  | none =>
    let (block, isLast) ← h.growthPoint
    let (result, h) ← h.stretch limit block size (if isLast then some block else none)
    return (result.map (.grown block · isLast), h)

end Heap

end SegFit
