/-
  The heap as a chain of blocks.  `h.Chain block cs` says that from `block` on the heap is
  tiled by the blocks `cs`, each given by its offset and tag, up to the zero word at the
  epilog header.
-/
import SegFit.Heap.Walk
import SegFit.Memory.Lemmas

namespace SegFit

/-- A block by its offset and its tag. -/
abbrev TaggedBlock : Type :=
  Nat × Tag

namespace Heap

/-- From `block` on, blocks follow one another up to the epilog header; the tag of each is in
its header and in its footer. -/
inductive Chain (h : Heap) : Nat → List TaggedBlock → Prop where
  | nil (zero : h.mem.word h.epilog = 0) : Chain h (h.epilog + wordSize) []
  | cons {block : Nat} {tag : Tag} {rest : List TaggedBlock}
      (header : Tag.decode (h.mem.word (block - wordSize)) = some tag)
      (large : minBlock ≤ tag.size)
      (footer : h.mem.word (block + tag.size - overhead) = tag.word)
      (tail : Chain h (block + tag.size) rest) : Chain h block ((block, tag) :: rest)

/-- A chain does not run past the epilog header. -/
theorem Chain.le {h : Heap} {block : Nat} {cs : List TaggedBlock} (hc : h.Chain block cs) :
    block ≤ h.epilog + wordSize := by
  induction hc with
  | nil => exact Nat.le_refl _
  | cons _ _ _ _ ih => omega

/-- The heap determines its chain. -/
theorem Chain.unique {h : Heap} {block : Nat} {cs ds : List TaggedBlock}
    (hc : h.Chain block cs) (hd : h.Chain block ds) : cs = ds := by
  induction hc generalizing ds with
  | nil zero =>
    cases hd with
    | nil => rfl
    | cons header large _ tail =>
      have := tail.le
      simp only [minBlock] at large
      omega
  | cons header large _ tail ih =>
    cases hd with
    | nil =>
      have := tail.le
      simp only [minBlock] at large
      omega
    | cons header' _ _ tail' =>
      obtain rfl : _ = _ := Option.some.inj (header.symm.trans header')
      rw [ih tail']

/-- No two blocks that follow one another are both free. -/
def Separated : List TaggedBlock → Prop
  | b :: c :: rest => ¬ (b.2.isFree ∧ c.2.isFree) ∧ Separated (c :: rest)
  | _ => True

end Heap

end SegFit
