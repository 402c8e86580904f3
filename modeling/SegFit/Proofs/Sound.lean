/-
  Heaps between operations.  A sound heap is consistent, its free blocks are all listed and
  apart from one another, nothing follows its epilog, and the word before its first block is
  not read as a free block.  `h.Becomes cs h' cs' ls'` is what every operation establishes:
  the new heap is sound, and a byte that carries structure neither before nor after keeps its
  value.  Payloads of allocated blocks are such bytes (`Becomes.payload`).  What no longer carries
  structure was not made odd either, so no header is left behind.
-/
import SegFit.Heap.Release
import SegFit.Proofs.Growth
import SegFit.Proofs.Parity

namespace SegFit

namespace Heap

variable {h h' : Heap} {cs cs' : List TaggedBlock} {ls ls' : Nat → List Nat}

/-! ## Free blocks -/

/-- Every free block is on the list of its bucket. -/
def Complete (cs : List TaggedBlock) (ls : Nat → List Nat) : Prop :=
  ∀ b ∈ cs, b.2.isFree → b.1 ∈ ls (Bucket.ofSize b.2.size)

theorem Complete.subset (hc : Complete cs ls) (hs : ∀ b ∈ cs', b ∈ cs) : Complete cs' ls :=
  fun b hb => hc b (hs b hb)

theorem Complete.dropNode (hc : Complete cs ls) {x : Nat} (hx : ∀ b ∈ cs, b.1 ≠ x) :
    Complete cs (dropNode ls x) :=
  fun b hb hf => (List.mem_erase_of_ne (hx b hb)).mpr (hc b hb hf)

theorem Complete.pushNode (hc : Complete cs ls) {x : Nat} {tag : Tag}
    (hs : ∀ b ∈ cs', b ∈ cs ∨ b = (x, tag)) :
    Complete cs' (pushNode ls (Bucket.ofSize tag.size) x) := by
  intro b hb hf
  rcases hs b hb with hb | rfl
  · exact mem_pushNode.mpr (.inr (hc b hb hf))
  · exact mem_pushNode.mpr (.inl ⟨rfl, rfl⟩)

/-- Two stretches of blocks are separated together if they are apart and their neighbours at
the seam are not both free. -/
theorem separated_append {xs ys : List TaggedBlock} :
    Separated (xs ++ ys) ↔ Separated xs ∧ Separated ys ∧
      ∀ b ∈ xs.getLast?, ∀ c ∈ ys.head?, ¬ (b.2.isFree ∧ c.2.isFree) := by
  induction xs with
  | nil => simp [Separated]
  | cons b xs ih =>
    cases xs with
    | nil => cases ys <;> simp [Separated, and_comm]
    | cons c xs =>
      simp only [List.cons_append] at ih ⊢
      simp only [Separated, ih, List.getLast?_cons_cons, and_assoc]

/-! ## Sound heaps -/

/-- A heap as it is between two operations, with its blocks and lists. -/
structure Sound (h : Heap) (cs : List TaggedBlock) (ls : Nat → List Nat) : Prop where
  shape : h.Shape cs ls
  span : h.epilog + epilogBytes = h.size
  small : h.size ≤ maxWord
  /-- The word before the first block is not the tag of a free block. -/
  guard : Memory.freeTag (Tag.decode (h.mem.word prologEnd)) = none

theorem Shape.complete' (hs : h.Shape cs ls) : Complete cs ls := by
  intro b hb hf
  have := hs.complete b.1 b.2 hb hf
  exact List.count_pos_iff.mp (by omega)

/-- A list holds the free blocks of its bucket. -/
theorem Shape.mem_list (hs : h.Shape cs ls) {k x : Nat} (hk : k < Bucket.count) :
    x ∈ ls k ↔ ∃ tag, (x, tag) ∈ cs ∧ tag.isFree ∧ Bucket.ofSize tag.size = k := by
  constructor
  · exact hs.listed k hk x
  · rintro ⟨tag, hmem, hfree, rfl⟩
    exact hs.complete' _ hmem hfree

/-- No block is twice on a list. -/
theorem Shape.nodup (hs : h.Shape cs ls) {b : Nat} (hb : b < Bucket.count) : (ls b).Nodup := by
  refine List.nodup_iff_count.mpr fun x => ?_
  by_cases hx : x ∈ ls b
  · obtain ⟨tag, hm, hf, hof⟩ := hs.listed b hb x hx
    have := hs.complete x tag hm hf
    rw [hof] at this
    exact Nat.le_of_eq this
  · rw [List.count_eq_zero_of_not_mem hx]
    exact Nat.zero_le _

namespace Sound

theorem chain (hs : h.Sound cs ls) : h.Chain firstBlock cs :=
  hs.shape.chain

theorem consistent (hs : h.Sound cs ls) : h.Consistent cs ls :=
  ⟨hs.shape.chain, hs.shape.linked, hs.shape.listed, fun _ => hs.shape.nodup,
    Nat.le_of_eq hs.span, hs.small⟩

theorem complete (hs : h.Sound cs ls) : Complete cs ls :=
  hs.shape.complete'

/-- Heaps of one extent have one size. -/
theorem size_eq (hs : h.Sound cs ls) (hs' : h'.Sound cs' ls') {n : Nat}
    (he : h'.epilog = h.epilog + n) : h'.size = h.size + n := by
  have hspan := hs.span
  have hspan' := hs'.span
  omega

end Sound

/-- A consistent heap whose free blocks are all listed and apart has the shape of a heap
between operations. -/
theorem Consistent.shape (hk : h.Consistent cs ls) (hsep : Separated cs)
    (hc : Complete cs ls) : h.Shape cs ls := by
  refine ⟨hk.chain, hsep, hk.linked, hk.listed, fun x tag hm hf => ?_⟩
  rw [(hk.nodup _ (Bucket.ofSize_lt _)).count, if_pos (hc (x, tag) hm hf)]

/-! ## Bytes without structure -/

/-- The word before the first block carries no structure that operations write. -/
theorem Chain.not_structByte_guard (hc : h.Chain firstBlock cs) {j : Nat}
    (hj : InWord prologEnd j) : ¬ h.StructByte cs j := by
  have hep := hc.firstHeader_le
  rintro (⟨b, hb, hs⟩ | hs | ⟨b, hb, hs⟩)
  · simp only [InWord, prologNode, prologEnd, wordSize, nodeSize, Bucket.count] at *
    omega
  · simp only [InWord, firstHeader, prologEnd, wordSize, nodeSize, Bucket.count] at *
    omega
  · have := hc.bounds hb
    simp only [Memory.TagByte, InWord, InNode, firstBlock, prologEnd, minBlock, overhead, wordSize,
      nodeSize, Bucket.count] at *
    omega

/-- Byte `j` belongs to the payload of the block. -/
def Payload (b : TaggedBlock) (j : Nat) : Prop :=
  b.1 ≤ j ∧ j + overhead < b.1 + b.2.size

/-- The payload of an allocated block carries no structure. -/
theorem Chain.not_structByte_of_payload (hc : h.Chain firstBlock cs) {b : TaggedBlock}
    (hb : b ∈ cs) (ha : b.2.status = .allocated) {j : Nat} (hj : Payload b j) :
    ¬ h.StructByte cs j := by
  have hbb := hc.bounds hb
  rintro (⟨c, hcc, hs⟩ | hs | ⟨c, hcc, hs⟩)
  · simp only [Payload, InWord, prologNode, firstBlock, prologEnd, overhead, wordSize, nodeSize,
      Bucket.count] at *
    omega
  · simp only [Payload, overhead, wordSize] at *
    omega
  · have hcb := hc.bounds hcc
    rcases hc.tiles.eq_or_apart hb hcc with rfl | hap
    · rcases hs with hs | ⟨hf, -⟩
      · simp only [Payload, Memory.TagByte, InWord, firstBlock, prologEnd, minBlock, overhead,
          wordSize, nodeSize, Bucket.count] at *
        omega
      · rw [Tag.isFree_iff, ha] at hf
        cases hf
    · simp only [Payload, Memory.TagByte, InWord, InNode, firstBlock, prologEnd, minBlock, overhead,
        wordSize, nodeSize, Bucket.count] at *
      omega

/-! ## Transitions -/

/-- From a heap with the blocks `cs` to a sound one with the blocks `cs'` and the lists `ls'`,
with nothing else changed. -/
structure Becomes (h : Heap) (cs : List TaggedBlock) (h' : Heap) (cs' : List TaggedBlock)
    (ls' : Nat → List Nat) : Prop where
  sound : h'.Sound cs' ls'
  frame : ∀ j, ¬ h.StructByte cs j → ¬ h'.StructByte cs' j → h'.mem.byte j = h.mem.byte j
  exact : h.Exact cs → h'.Exact cs'
  odd : ∀ j, ¬ h'.StructByte cs' j → h'.mem.OddAt j → h.mem.OddAt j

/-- What an operation has to show of the heap that it leaves. -/
theorem Sound.becomes (hs : h.Sound cs ls) (hk : h'.Consistent cs' ls')
    (hspan : h'.epilog + epilogBytes = h'.size) (hsep : Separated cs') (hc : Complete cs' ls')
    (he : h.Exact cs → h'.Exact cs')
    (hf : ∀ j, ¬ h.StructByte cs j → ¬ h'.StructByte cs' j → h'.mem.byte j = h.mem.byte j)
    (ho : ∀ j, ¬ h'.StructByte cs' j → h'.mem.OddAt j → h.mem.OddAt j) :
    h.Becomes cs h' cs' ls' := by
  refine ⟨⟨hk.shape hsep hc, hspan, hk.small, ?_⟩, hf, he, ho⟩
  have hw : h'.mem.word prologEnd = h.mem.word prologEnd := by
    refine Memory.word_congr fun j hj => hf j ?_ ?_
    · exact hs.chain.not_structByte_guard hj
    · exact hk.chain.not_structByte_guard hj
  rw [hw]
  exact hs.guard

/-- A byte that is in the payload of an allocated block before and after keeps its value. -/
theorem Becomes.payload (ht : h.Becomes cs h' cs' ls') (hc : h.Chain firstBlock cs)
    {b b' : TaggedBlock} (hb : b ∈ cs) (ha : b.2.status = .allocated) (hb' : b' ∈ cs')
    (ha' : b'.2.status = .allocated) {j : Nat} (hj : Payload b j) (hj' : Payload b' j) :
    h'.mem.byte j = h.mem.byte j :=
  ht.frame j (hc.not_structByte_of_payload hb ha hj)
    (ht.sound.chain.not_structByte_of_payload hb' ha' hj')

end Heap

end SegFit
