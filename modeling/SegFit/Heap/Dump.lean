/-
  The dump of a heap: every block with its tags and links, and how many blocks wait in each
  bucket.
-/
import SegFit.Heap.Description

namespace SegFit

namespace Heap

/-- Which sentinels a link points at, if any. -/
def linkMark (h : Heap) (link : Nat) : String :=
  if link < prologEnd then "(prolog)" else if h.epilog < link then "(epilog)" else ""

/-- The lines on one block. -/
def dumpBlock (h : Heap) (b : Block) : Except Fault String := do
  let (word, left, right) := match b.status with
    | .free => ("free", "[", "]")
    | .allocated => ("alloc", "(", ")")
  let headerAt ← header b.offset
  let footerAt ← footer b.offset b.size
  let footerSize := ((← h.mem.tagAt footerAt).map Tag.size).getD 0
  let links := match b.links with
    | some (pred, succ) =>
      s!"  PRED: {hex pred}{h.linkMark pred} SUCC: {hex succ}{h.linkMark succ}\n"
    | none => ""
  return s!"#block {hex b.offset}({b.size}, {word})\n" ++
    s!"  HDR: {hex headerAt}{left}{b.size}{right} FTR: {hex footerAt}{left}{footerSize}{right}\n" ++
    links

/-- The line on bucket `b`, none if it has no block. -/
def dumpBucket (b count : Nat) : String :=
  if count = 0 then "" else s!"#bucket {b} (>= {Bucket.floor b} bytes): {count} free\n"

/-- The dump. -/
def dump (h : Heap) : Except Fault String := do
  let blocks ← h.blocks
  let lines ← blocks.mapM h.dumpBlock
  let buckets := (Occupancy.ofBlocks h.size blocks).freeByBucket.zipIdx.map
    fun (count, b) => dumpBucket b count
  return s!"=== heap dump: {h.size} bytes, epilog header at {hex h.epilog} ===\n" ++
    String.join lines ++ String.join buckets ++ "=== end heap dump ==="

end Heap

end SegFit
