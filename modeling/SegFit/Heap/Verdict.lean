/-
  The heap checker.  It follows the chain of blocks from the first to the epilog header,
  then every list from its prolog node to its epilog node, and reports the first violation:
  blocks tile the heap, footers repeat headers, no two free blocks are adjacent, links agree
  in both directions, and each free block is on exactly one list, that of its own bucket.
-/
import SegFit.Heap.Lists
import SegFit.Heap.Violation
import Std.Data.TreeSet

namespace SegFit

/-- A computation that reads a heap and may report a violation. -/
abbrev Checked (α : Type) : Type :=
  ExceptT Violation (Except Fault) α

/-- A set of offsets. -/
abbrev Offsets : Type :=
  Std.TreeSet Nat

namespace Heap

/-- The offsets of the free blocks from `block` on, in ascending order; `prev` is the block
before it if that is free. -/
def checkBlocks (h : Heap) (block : Nat) (prev : Option Nat) : Checked (List Nat) := do
  let start := block - wordSize
  if h.epilog < start then throw (.pastEpilog start h.epilog)
  else match ← h.mem.tagOf block with
  | none => if start ≠ h.epilog then throw (.zeroHeader start h.epilog) else return []
  | some tag =>
    if block % alignment ≠ 0 then throw (.misaligned (← h.mem.describe block))
    else if tag.size < minBlock ∨ h.epilog < block - wordSize + tag.size then
      throw (.sizeOutOfRange start h.epilog)
    else
      let footerWord ← h.mem.readWord (← footer block tag.size)
      if footerWord ≠ tag.word then
        throw (.tagsDisagree (← h.mem.describe block) tag.word footerWord)
      else match tag.status, prev with
      | .free, some prev => throw (.adjacentFree prev (← h.mem.describe block))
      | .free, none => return block :: (← h.checkBlocks (block + tag.size) (some block))
      | .allocated, _ => h.checkBlocks (block + tag.size) none
termination_by h.epilog + wordSize - block
decreasing_by all_goals simp only [minBlock, wordSize] at *; omega

/-- Follows the list of bucket `b` from `node`, the successor of `prev`, and adds its blocks
to those already `listed`; all of them are among the blocks `free`. -/
def checkList (h : Heap) (free : Offsets) (b : Nat) :
    Nat → Nat → Nat → Offsets → Checked Offsets
  | 0, _, _, _ => ExceptT.mk (.error .endless)
  | n + 1, prev, node, listed => do
    if node = h.epilogNode b then
      let found ← h.mem.pred node
      if found ≠ prev then throw (.brokenLink b node prev found) else return listed
    else if node < firstBlock ∨ h.epilog ≤ node ∨ node % alignment ≠ 0 then
      throw (.strayNode b node)
    else
      let found ← h.mem.pred node
      if found ≠ prev then throw (.brokenLink b node prev found)
      else
        let seen ← h.mem.describe node
        if ¬ free.contains node then
          match seen.status with
          | some .allocated => throw (.allocatedOnList b seen)
          | _ => throw (.strayNode b node)
        else if Bucket.ofSize seen.size ≠ b then
          throw (.wrongBucket b (Bucket.ofSize seen.size) seen)
        else if listed.contains node then throw (.listedTwice b seen)
        else h.checkList free b n node (← h.mem.succ node) (listed.insert node)

/-- Follows the list of bucket `b`.  It holds no block twice, so it is no longer than the
number of free blocks. -/
def checkBucket (h : Heap) (free : Offsets) (listed : Offsets) (b : Nat) : Checked Offsets := do
  h.checkList free b (free.size + 1) (prologNode b) (← h.mem.succ (prologNode b)) listed

/-- Follows every list. -/
def checkLists (h : Heap) (free : Offsets) : Checked Offsets :=
  (List.range Bucket.count).foldlM (h.checkBucket free) ∅

/-- Looks for a violation in blocks, lists, and free blocks that are on no list. -/
def checkAll (h : Heap) : Checked Unit := do
  let free ← h.checkBlocks firstBlock none
  let listed ← h.checkLists (Std.TreeSet.ofList free)
  match free.find? fun block => !listed.contains block with
  | some block => throw (.unlisted (← h.mem.describe block))
  | none => return ()

/-- The verdict on a heap: the first violation, if there is one. -/
def check (h : Heap) : Except Fault (Except Violation Unit) :=
  h.checkAll.run

end Heap

end SegFit
