/-
  Well-formed heaps: blocks tile the heap, no two free ones are adjacent, and each free block
  is on exactly one list, that of its own bucket, whose links agree in both directions.
-/
import SegFit.Heap.Chain
import SegFit.Heap.Linked

namespace SegFit

namespace Heap

/-- The blocks `cs` and the lists `lists` are those of the heap and belong together. -/
structure Shape (h : Heap) (cs : List TaggedBlock) (lists : Nat → List Nat) : Prop where
  chain : h.Chain firstBlock cs
  separated : Separated cs
  linked : ∀ b < Bucket.count, h.Holds b (lists b)
  listed : ∀ b < Bucket.count, ∀ node ∈ lists b,
    ∃ tag, (node, tag) ∈ cs ∧ tag.isFree ∧ Bucket.ofSize tag.size = b
  complete : ∀ block tag, (block, tag) ∈ cs → tag.isFree →
    (lists (Bucket.ofSize tag.size)).count block = 1

/-- The heap is made of blocks and lists that belong together. -/
def WellFormed (h : Heap) : Prop :=
  ∃ cs lists, h.Shape cs lists

end Heap

end SegFit
