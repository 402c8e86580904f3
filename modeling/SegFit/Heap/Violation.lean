/-
  What can be wrong with a heap, and how it is worded.
-/
import SegFit.Heap.Description

namespace SegFit

/-- The first thing found wrong with a heap. -/
inductive Violation where
  | misaligned (block : BlockDescription)
  | tagsDisagree (block : BlockDescription) (header footer : UInt32)
  | brokenChain (start epilog : Nat) (reason : String)
  | adjacentFree (prev : Nat) (block : BlockDescription)
  | allocatedOnList (bucket : Nat) (block : BlockDescription)
  | wrongBucket (bucket expected : Nat) (block : BlockDescription)
  | listedTwice (bucket : Nat) (block : BlockDescription)
  | strayNode (bucket node : Nat)
  | brokenLink (bucket node expected found : Nat)
  | unlisted (block : BlockDescription)
  deriving DecidableEq, Repr

namespace Violation

/-- The chain runs past the epilog header. -/
def pastEpilog (start epilog : Nat) : Violation :=
  .brokenChain start epilog "block runs past the epilog"

/-- The chain ends before the epilog header. -/
def zeroHeader (start epilog : Nat) : Violation :=
  .brokenChain start epilog "zero header before the epilog"

/-- A header gives a size that no block at its place has. -/
def sizeOutOfRange (start epilog : Nat) : Violation :=
  .brokenChain start epilog "block size out of range"

/-- The wording of a violation. -/
def message : Violation → String
  | .misaligned block => s!"block {block.text}: payload is not 8-byte aligned"
  | .tagsDisagree block header footer =>
    s!"block {block.text}: header {hexWord header} and footer {hexWord footer} disagree"
  | .brokenChain start epilog reason =>
    s!"block chain broken at {hex start}: {reason} (epilog header at {hex epilog})"
  | .adjacentFree prev block => s!"blocks {hex prev} and {block.text} are adjacent and both free"
  | .allocatedOnList bucket block =>
    s!"bucket {bucket}: allocated block {block.text} is on a free list"
  | .wrongBucket bucket expected block =>
    s!"bucket {bucket}: block {block.text} belongs in bucket {expected}"
  | .listedTwice bucket block => s!"bucket {bucket}: block {block.text} is reached twice"
  | .strayNode bucket node => s!"bucket {bucket}: node {hex node} is not a block in the heap"
  | .brokenLink bucket node expected found =>
    s!"bucket {bucket}: node {hex node} has pred {hex found}, expected {hex expected}"
  | .unlisted block => s!"free block {block.text} is on no free list"

end Violation

end SegFit
