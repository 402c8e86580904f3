/-
  What observers see of a sound heap.  The walk over the blocks finds its blocks
  (`Consistent.blocks`), a walk over a list finds that list (`Consistent.nodes`), and a pointer
  passes validation if it is that of an allocated block (`Consistent.liveSize`); validation itself
  never fails to answer (`Consistent.exists_liveSize`).
-/
import SegFit.Heap.Live
import SegFit.Proofs.FirstFit

namespace SegFit

/-- The block without its links. -/
def Block.tagged (b : Block) : TaggedBlock :=
  (b.offset, ⟨b.size, b.status⟩)

namespace Heap

variable {h : Heap} {cs : List TaggedBlock} {ls : Nat → List Nat}

/-! ## Blocks -/

/-- A block as the walk shows it. -/
def viewOf (m : Memory) (b : TaggedBlock) : Block :=
  ⟨b.1, b.2.size, b.2.status, if b.2.isFree then some (m.predLink b.1, m.succLink b.1) else none⟩

theorem map_tagged_views (m : Memory) (cs : List TaggedBlock) :
    (cs.map (viewOf m)).map Block.tagged = cs :=
  List.map_map.trans (List.map_id' cs)

theorem freeLinks_eq {m : Memory} {b : TaggedBlock} (hin : b.1 + nodeSize ≤ m.size) :
    m.freeLinks b.1 b.2.status = .ok (viewOf m b).links := by
  have hp : m.pred b.1 = .ok (m.predLink b.1) := Memory.pred_of_le (by
    simp only [nodeSize, wordSize] at *
    omega)
  obtain ⟨x, size, status⟩ := b
  cases status with
  | allocated => rfl
  | free =>
    simp only [Memory.freeLinks, hp, Memory.succ_of_le hin, ok_bind]
    rfl

theorem Chain.blocksFrom (hs : h.epilog + epilogBytes ≤ h.size) {block : Nat}
    (hb : wordSize ≤ block) (hc : h.Chain block cs) :
    h.blocksFrom block = .ok (cs.map (viewOf h.mem)) := by
  induction hc with
  | nil =>
    unfold Heap.blocksFrom
    rw [if_pos (by omega)]
    rfl
  | @cons block tag rest header large footer tail ih =>
    have hle := tail.le
    have hin : block + nodeSize ≤ h.mem.size := by
      simp only [Heap.size, epilogBytes, minBlock, nodeSize, wordSize, Bucket.count] at *
      omega
    unfold Heap.blocksFrom
    rw [if_neg (by simp only [minBlock, wordSize] at *; omega),
      Memory.tagOf_of_le hb (by omega), ok_bind, header]
    show (if tag.size < minBlock ∨ h.epilog < block - wordSize + tag.size then _ else _) = _
    rw [if_neg (by omega), freeLinks_eq (b := (block, tag)) hin, ok_bind, ih (by omega)]
    rfl

/-- The walk finds the blocks of the heap. -/
theorem Consistent.blocks (hk : h.Consistent cs ls) : h.blocks = .ok (cs.map (viewOf h.mem)) :=
  hk.chain.blocksFrom hk.room (by decide)

/-! ## Lists -/

/-- Reading a list finds all of it. -/
theorem Consistent.nodes (hk : h.Consistent cs ls) {k : Nat} (hb : k < Bucket.count) :
    h.nodes k = .ok (ls k) :=
  hk.threaded.nodes hb

/-! ## Validation -/

namespace Consistent

variable (hk : h.Consistent cs ls)
include hk

/-- The pointer of an allocated block passes validation. -/
theorem liveSize {b : TaggedBlock} (hb : b ∈ cs) (ha : b.2.status = .allocated) :
    h.liveSize b.1 = .ok (.ok b.2.size) := by
  have hbb := hk.chain.bounds hb
  have hm := hk.chain.marked hb
  have hal := hk.chain.aligned.1 b hb
  have hroom := hk.room
  have hsmall := hk.small
  have hfoot : footer b.1 b.2.size = .ok (b.1 + b.2.size - overhead) :=
    footer_of_le (Nat.le_trans (by decide) hbb.2.2)
      (by simp only [offsetBound, maxWord, wordSize] at *; omega)
  unfold Heap.liveSize
  rw [if_neg (by simp only [minBlock, wordSize] at *; omega),
    Memory.tagOf_of_le (by simp only [firstBlock, overhead, wordSize] at *; omega)
      (by simp only [Heap.size, epilogBytes, minBlock, wordSize] at *; omega), ok_bind, hm.header]
  show (if b.2.size < minBlock ∨ h.epilog < b.1 - wordSize + b.2.size then _ else _) = _
  rw [if_neg (by simp only [firstBlock, overhead, minBlock, wordSize] at *; omega), hfoot, ok_bind,
    Memory.readWord_of_le (by simp only [Heap.size, epilogBytes, overhead, wordSize] at *; omega),
    ok_bind, hm.footer, if_neg (not_not_intro rfl), ha]
  rfl

/-- Validation answers for any number. -/
theorem exists_liveSize (ptr : Nat) : ∃ answer, h.liveSize ptr = .ok answer := by
  have hroom := hk.room
  have hsmall := hk.small
  unfold Heap.liveSize
  split
  · exact ⟨_, rfl⟩
  · rename_i hp
    rw [Memory.tagOf_of_le (by simp only [firstBlock, overhead, wordSize] at *; omega)
      (by simp only [Heap.size, epilogBytes, wordSize] at *; omega), ok_bind]
    cases Tag.decode (h.mem.word (ptr - wordSize)) with
    | none => exact ⟨_, rfl⟩
    | some tag =>
      show ∃ answer,
        (if tag.size < minBlock ∨ h.epilog < ptr - wordSize + tag.size then _ else _) = _
      split
      · exact ⟨_, rfl⟩
      · rename_i ht
        have hfoot : footer ptr tag.size = .ok (ptr + tag.size - overhead) :=
          footer_of_le (by simp only [minBlock, overhead] at *; omega)
            (by simp only [offsetBound, maxWord, wordSize] at *; omega)
        rw [hfoot, ok_bind, Memory.readWord_of_le (by
          simp only [Heap.size, epilogBytes, firstBlock, minBlock, overhead, wordSize] at *
          omega), ok_bind]
        split
        · exact ⟨_, rfl⟩
        · cases tag.status <;> exact ⟨_, rfl⟩

end Consistent

end Heap

end SegFit
