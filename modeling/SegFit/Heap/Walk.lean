/-
  The blocks of a heap in the order of their addresses, and figures on them.  The walk ends
  where no tag describes a block inside the heap, so it ends on any store.
-/
import SegFit.Heap.Basic

namespace SegFit

/-- A block as the walk finds it. -/
structure Block where
  offset : Nat
  size : Nat
  status : Status
  /-- The links to the nodes before and after it, of a free block. -/
  links : Option (Nat × Nat)
  deriving DecidableEq, Repr

/-- Whether the block is free. -/
def Block.isFree (b : Block) : Bool :=
  b.status = .free

namespace Memory

/-- The links of a free block. -/
def freeLinks (m : Memory) (block : Nat) (status : Status) :
    Except Fault (Option (Nat × Nat)) := do
  match status with
  | .allocated => return none
  | .free => return some (← m.pred block, ← m.succ block)

end Memory

namespace Heap

/-- The blocks from `block` on. -/
def blocksFrom (h : Heap) (block : Nat) : Except Fault (List Block) := do
  if h.epilog ≤ block - wordSize then return []
  else match ← h.mem.tagOf block with
  | none => return []
  | some tag =>
    if tag.size < minBlock ∨ h.epilog < block - wordSize + tag.size then return []
    else
      let links ← h.mem.freeLinks block tag.status
      let rest ← h.blocksFrom (block + tag.size)
      return ⟨block, tag.size, tag.status, links⟩ :: rest
termination_by h.epilog + wordSize - block
decreasing_by simp only [minBlock, wordSize] at *; omega

/-- All blocks. -/
def blocks (h : Heap) : Except Fault (List Block) :=
  h.blocksFrom firstBlock

end Heap

/-- How a heap is occupied. -/
structure Occupancy where
  heapSize : Nat
  allocatedBlocks : Nat
  allocatedBytes : Nat
  freeBlocks : Nat
  freeBytes : Nat
  largestFree : Nat
  /-- The number of free blocks of each bucket. -/
  freeByBucket : List Nat
  deriving DecidableEq, Repr

namespace Occupancy

/-- The figures on a heap of `size` bytes that holds `blocks`. -/
def ofBlocks (size : Nat) (blocks : List Block) : Occupancy :=
  let free := blocks.filter Block.isFree
  let allocated := blocks.filter fun b => !b.isFree
  { heapSize := size
    allocatedBlocks := allocated.length
    allocatedBytes := (allocated.map Block.size).foldl (· + ·) 0
    freeBlocks := free.length
    freeBytes := (free.map Block.size).foldl (· + ·) 0
    largestFree := (free.map Block.size).foldl max 0
    freeByBucket := (List.range Bucket.count).map fun b =>
      free.countP fun block => Bucket.ofSize block.size = b }

/-- The share of the free bytes that lies outside the largest free block, zero when nothing
is free. -/
def fragmentation (s : Occupancy) : Float :=
  if s.freeBytes = 0 then 0
  else 1 - s.largestFree.toUInt64.toFloat / s.freeBytes.toUInt64.toFloat

end Occupancy

/-- The figures on the heap. -/
def Heap.occupancy (h : Heap) : Except Fault Occupancy := do
  return .ofBlocks h.size (← h.blocks)

end SegFit
