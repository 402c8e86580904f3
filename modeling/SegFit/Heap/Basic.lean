/-
  A heap: a store with a sentinel node for each end of each bucket's list.

      0                  104    108            epilog      epilog + 4
      | prolog nodes 0…12 | 0000 | blocks …     | 0000      | epilog nodes 0…12 |

  A node is a pair of links, to the node before and to the node after.  Since both ends of a
  list are nodes, insertion and removal meet no empty list.  The zero words before the first
  block and after the last one are read as tags that belong to no block.
-/
import SegFit.Block.Layout
import SegFit.Bucket

namespace SegFit

/-- Bytes of a node. -/
abbrev nodeSize : Nat := 2 * wordSize

/-- Where the zero word before the first block is, right after the prolog nodes. -/
abbrev prologEnd : Nat := Bucket.count * nodeSize

/-- The payload offset of the first block. -/
abbrev firstBlock : Nat := prologEnd + overhead

/-- Bytes from the epilog header to the end of the heap. -/
abbrev epilogBytes : Nat := wordSize + Bucket.count * nodeSize

/-- The size of a heap without blocks. -/
abbrev emptySize : Nat := prologEnd + wordSize + epilogBytes

/-- A store with free lists in it. -/
structure Heap where
  mem : Memory
  /-- Where the zero word after the last block is. -/
  epilog : Nat

/-- The first node of bucket `b`. -/
def prologNode (b : Nat) : Nat :=
  b * nodeSize

namespace Heap

/-- The number of bytes. -/
def size (h : Heap) : Nat :=
  h.mem.size

/-- The last node of bucket `b`. -/
def epilogNode (h : Heap) (b : Nat) : Nat :=
  h.epilog + wordSize + b * nodeSize

/-- The heap with `n` zero bytes more at its end. -/
def extend (h : Heap) (n : Nat) : Heap :=
  { h with mem := h.mem.extend n }

/-- Where the first block begins, and the epilog header of a heap without blocks. -/
abbrev firstHeader : Nat := prologEnd + wordSize

/-- Links the two sentinels of bucket `b` to one another. -/
def emptyList (h : Heap) (b : Nat) : Except Fault Heap := do
  let m ← h.mem.setPred (prologNode b) 0
  let m ← m.setSucc (prologNode b) (h.epilogNode b)
  let m ← m.setPred (h.epilogNode b) (prologNode b)
  let m ← m.setSucc (h.epilogNode b) 0
  return { h with mem := m }

/-- A heap of `n` zero bytes, not yet laid out. -/
def blank (n : Nat) : Heap :=
  ⟨Memory.empty.extend n, firstHeader⟩

/-- Lays out a heap without blocks at the start of `m`. -/
def layOut (m : Memory) : Except Fault Heap := do
  let m ← m.writeWord prologEnd 0
  let m ← m.writeWord firstHeader 0
  (List.range Bucket.count).foldlM emptyList ⟨m, firstHeader⟩

end Heap

end SegFit
