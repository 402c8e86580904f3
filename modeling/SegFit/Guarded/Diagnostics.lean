/-
  The diagnostics with all of their arithmetic guarded: the check, the walk over the blocks, the
  figures on them and the dump.  Every sum has to be an offset, every difference has to exist, a
  tag that is compared with a footer has to be one that words can hold, and a count has to be one
  of those that are kept; otherwise they end in a fault.

  As in the guarded operations, an access to the store guards itself.
-/
import SegFit.Guarded.Heap
import SegFit.Heap.Verdict
import SegFit.Heap.Dump

namespace SegFit

namespace Memory

/-- What the header and the links of `block` say. -/
def guardedDescribe (m : Memory) (block : Nat) : Except Fault BlockDescription := do
  match ← m.tagOf block with
  | none => return ⟨block, 0, none, none⟩
  | some tag =>
    if (← offset (block + 2 * wordSize)) ≤ m.size then
      return ⟨block, tag.size, some tag.status, ← m.freeLinks block tag.status⟩
    else return ⟨block, tag.size, some tag.status, none⟩

end Memory

namespace Heap

/-! ## The check -/

/-- The offsets of the free blocks from `block` on, in ascending order; `prev` is the block
before it if that is free. -/
def guardedCheckBlocks (h : Heap) (block : Nat) (prev : Option Nat) : Checked (List Nat) := do
  let _ ← header block
  let start := block - wordSize
  if h.epilog < start then throw (.pastEpilog start h.epilog)
  else match ← h.mem.tagOf block with
  | none => if start ≠ h.epilog then throw (.zeroHeader start h.epilog) else return []
  | some tag =>
    if block % alignment ≠ 0 then throw (.misaligned (← h.mem.guardedDescribe block))
    else
      let _ ← offset (block - wordSize + tag.size)
      if tag.size < minBlock ∨ h.epilog < block - wordSize + tag.size then
        throw (.sizeOutOfRange start h.epilog)
      else
        let headerWord ← tag.encode
        let footerWord ← h.mem.readWord (← footer block tag.size)
        if footerWord ≠ headerWord then
          throw (.tagsDisagree (← h.mem.guardedDescribe block) headerWord footerWord)
        else
          let _ ← offset (block + tag.size)
          match tag.status, prev with
          | .free, some prev => throw (.adjacentFree prev (← h.mem.guardedDescribe block))
          | .free, none => return block :: (← h.guardedCheckBlocks (block + tag.size) (some block))
          | .allocated, _ => h.guardedCheckBlocks (block + tag.size) none
termination_by h.epilog + wordSize - block
decreasing_by all_goals simp only [minBlock, wordSize] at *; omega

/-- Follows the list of bucket `b`, which ends at `tail`, from `node`, the successor of `prev`. -/
def guardedCheckList (h : Heap) (free : Offsets) (b tail : Nat) :
    Nat → Nat → Nat → Offsets → Checked Offsets
  | 0, _, _, _ => ExceptT.mk (.error .endless)
  | n + 1, prev, node, listed => do
    if node = tail then
      let found ← h.mem.pred node
      if found ≠ prev then throw (.brokenLink b node prev found) else return listed
    else if node < firstBlock ∨ h.epilog ≤ node ∨ node % alignment ≠ 0 then
      throw (.strayNode b node)
    else
      let found ← h.mem.pred node
      if found ≠ prev then throw (.brokenLink b node prev found)
      else
        let seen ← h.mem.guardedDescribe node
        if ¬ free.contains node then
          match seen.status with
          | some .allocated => throw (.allocatedOnList b seen)
          | _ => throw (.strayNode b node)
        else if Bucket.ofSize seen.size ≠ b then
          throw (.wrongBucket b (Bucket.ofSize seen.size) seen)
        else if listed.contains node then throw (.listedTwice b seen)
        else h.guardedCheckList free b tail n node (← h.mem.succ node) (listed.insert node)

/-- Follows the list of bucket `b`. -/
def guardedCheckBucket (h : Heap) (free : Offsets) (listed : Offsets) (b : Nat) :
    Checked Offsets := do
  let tail ← offset (h.epilogNode b)
  let first ← h.mem.succ (prologNode b)
  h.guardedCheckList free b tail (free.size + 1) (prologNode b) first listed

/-- The verdict on a heap: the first violation, if there is one. -/
def guardedCheck (h : Heap) : Except Fault (Except Violation Unit) :=
  ExceptT.run do
    let free ← h.guardedCheckBlocks firstBlock none
    let listed ← (List.range Bucket.count).foldlM (h.guardedCheckBucket (.ofList free)) ∅
    match free.find? fun block => !listed.contains block with
    | some block => throw (.unlisted (← h.mem.guardedDescribe block))
    | none => return ()

/-! ## The walk over the blocks -/

/-- The blocks from `block` on. -/
def guardedBlocksFrom (h : Heap) (block : Nat) : Except Fault (List Block) := do
  let _ ← header block
  if h.epilog ≤ block - wordSize then return []
  else match ← h.mem.tagOf block with
  | none => return []
  | some tag =>
    let _ ← offset (block - wordSize + tag.size)
    if tag.size < minBlock ∨ h.epilog < block - wordSize + tag.size then return []
    else
      let links ← h.mem.freeLinks block tag.status
      let _ ← offset (block + tag.size)
      let rest ← h.guardedBlocksFrom (block + tag.size)
      return ⟨block, tag.size, tag.status, links⟩ :: rest
termination_by h.epilog + wordSize - block
decreasing_by simp only [minBlock, wordSize] at *; omega

/-- All blocks. -/
def guardedBlocks (h : Heap) : Except Fault (List Block) :=
  h.guardedBlocksFrom firstBlock

end Heap

namespace Occupancy

/-- The figures on a heap of `size` bytes before its blocks are counted. -/
def uncounted (size : Nat) : Occupancy :=
  ⟨size, 0, 0, 0, 0, 0, List.replicate Bucket.count 0⟩

/-- Counts one block more. -/
def guardedCount (s : Occupancy) (block : Block) : Except Fault Occupancy := do
  if block.isFree then
    match s.freeByBucket[Bucket.ofSize block.size]? with
    | none => .error .outOfBounds
    | some n =>
      return { s with
        freeBlocks := ← offset (s.freeBlocks + 1)
        freeBytes := ← offset (s.freeBytes + block.size)
        largestFree := max s.largestFree block.size
        freeByBucket := s.freeByBucket.set (Bucket.ofSize block.size) (← offset (n + 1)) }
  else
    return { s with
      allocatedBlocks := ← offset (s.allocatedBlocks + 1)
      allocatedBytes := ← offset (s.allocatedBytes + block.size) }

/-- Counts the blocks one by one. -/
def guardedOfBlocks (size : Nat) (blocks : List Block) : Except Fault Occupancy :=
  blocks.foldlM guardedCount (uncounted size)

end Occupancy

namespace Heap

/-- The figures on the heap. -/
def guardedOccupancy (h : Heap) : Except Fault Occupancy := do
  Occupancy.guardedOfBlocks h.size (← h.guardedBlocks)

/-- The dump. -/
def guardedDump (h : Heap) : Except Fault String := do
  let blocks ← h.guardedBlocks
  let lines ← blocks.mapM h.dumpBlock
  let figures ← Occupancy.guardedOfBlocks h.size blocks
  let buckets := figures.freeByBucket.zipIdx.map fun (count, b) => dumpBucket b count
  return s!"=== heap dump: {h.size} bytes, epilog header at {hex h.epilog} ===\n" ++
    String.join lines ++ String.join buckets ++ "=== end heap dump ==="

end Heap

end SegFit
