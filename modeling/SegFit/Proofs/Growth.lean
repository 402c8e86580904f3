/-
  Growth.  New bytes at the end of the store change nothing of the heap (`Consistent.extend`).
  Moving the epilog up leaves a gap between the last block and the epilog header, so chain
  and lists are together again only when the last block has been retagged to reach it:
  `Consistent.grow` speaks of both steps at once.
-/
import SegFit.Proofs.Consistency

namespace SegFit

namespace Heap

variable {h : Heap} {cs pre mid : List TaggedBlock} {ls : Nat → List Nat}

/-- A store with zero bytes added holds the same blocks and lists. -/
theorem Consistent.extend (hk : h.Consistent cs ls) {n : Nat} (hn : h.size + n ≤ maxWord) :
    Consistent ⟨h.mem.extend n, h.epilog⟩ cs ls := by
  have hword : ∀ i, (h.mem.extend n).word i = h.mem.word i := Memory.word_extend h.mem n
  have hsz : (⟨h.mem.extend n, h.epilog⟩ : Heap).size = h.size + n := Memory.size_extend ..
  refine ⟨chain_iff.mpr ⟨hk.chain.tiles, fun b hb => ⟨?_, ?_⟩, ?_⟩, fun b hb => ?_, hk.listed,
    hk.nodup, ?_, ?_⟩
  · exact (congrArg Tag.decode (hword _)).trans (hk.chain.marked hb).header
  · exact (hword _).trans (hk.chain.marked hb).footer
  · exact (hword _).trans hk.chain.zero
  · exact (hk.linked b hb).congr (fun _ _ => congrArg UInt32.toNat (hword _))
      fun _ _ => congrArg UInt32.toNat (hword _)
  · rw [hsz]
    exact Nat.le_trans hk.room (Nat.le_add_right _ _)
  · rw [hsz]
    exact hn

theorem Exact.extend (he : h.Exact cs) (n : Nat) : Exact ⟨h.mem.extend n, h.epilog⟩ cs := by
  have hword : ∀ i, (h.mem.extend n).word i = h.mem.word i := Memory.word_extend h.mem n
  refine ⟨fun b hb => ?_, fun b hb => ?_, fun b hb => ?_, ?_⟩
  · exact (hword _).trans (he.headers b hb)
  · exact (congrArg UInt32.toNat (hword _)).trans (he.prologPred b hb)
  · exact (congrArg UInt32.toNat (hword _)).trans (he.epilogSucc b hb)
  · exact (hword _).trans he.prologFooter

/-- The bytes that growth writes: forward links of last nodes, the new epilog, and the tags of
the new last block. -/
def GrowthByte (ls : Nat → List Nat) (epilog : Nat) (b : TaggedBlock) (j : Nat) : Prop :=
  MoveByte ls epilog j ∨ Memory.TagByte b j

/-! ## Moving the epilog and retagging -/

/-- The region `mid` from `block` on, in which no block is listed, is to become one block of
`size` bytes that reaches the epilog header when this has moved by `shift`. -/
structure GrowthRegion (h : Heap) (pre mid : List TaggedBlock) (ls : Nat → List Nat)
    (block size shift : Nat) : Prop where
  before : Tiles firstBlock pre block
  region : Tiles block mid (h.epilog + wordSize)
  unlisted : ∀ b ∈ mid, ∀ c < Bucket.count, b.1 ∉ ls c
  total : block + size = h.epilog + wordSize + shift
  large : minBlock ≤ size

namespace GrowthRegion

variable {block size shift : Nat} {m m' : Memory} (hg : h.GrowthRegion pre mid ls block size shift)
  (hk : h.Consistent (pre ++ mid) ls)

include hg hk

/-- Listed blocks lie before the region. -/
theorem listed_below {c x : Nat} (hc : c < Bucket.count) (hx : x ∈ ls c) :
    firstBlock ≤ x ∧ x + minBlock ≤ block := by
  obtain ⟨tag, hm, -⟩ := hk.listed c hc x hx
  rcases List.mem_append.mp hm with hm | hm
  · have := hg.before.bounds hm
    simp only at this
    omega
  · exact absurd hx (hg.unlisted _ hm c hc)

/-- No tag before the region is written. -/
theorem not_growthByte_of_tagByte {b : TaggedBlock} (hb : b ∈ pre) {j : Nat}
    (hj : Memory.TagByte b j) :
    ¬ GrowthByte ls (h.epilog + shift) (block, ⟨size, .allocated⟩) j := by
  have hbb := hg.before.bounds hb
  have htotal := hg.total
  have hlarge := hg.large
  rintro ((⟨c, hc, hs⟩ | hs) | hs)
  · have hin : InNode (lastNode ls c) j := inNode_of_succ hs
    rcases lastNode_eq_or_mem ls c with he | hx
    · rw [he] at hin
      simp only [Memory.TagByte, InWord, InNode, prologNode, firstBlock, prologEnd, overhead,
        wordSize, nodeSize, minBlock, Bucket.count] at *
      omega
    · obtain ⟨tag, hmem, -⟩ := hk.listed c hc _ hx
      exact hk.chain.not_inNode_of_tagByte (List.mem_append_left _ hb) hmem hj hin
  · have := hg.region.le
    simp only [Memory.TagByte, InWord, overhead, wordSize, minBlock] at *
    omega
  · simp only [Memory.TagByte, InWord, overhead, wordSize, minBlock] at *
    omega

/-- No backward link of a prolog node is written, and not the word after these nodes. -/
theorem not_growthByte_of_prolog {j : Nat}
    (hj : InWord prologEnd j ∨ ∃ c < Bucket.count, InWord (prologNode c) j) :
    ¬ GrowthByte ls (h.epilog + shift) (block, ⟨size, .allocated⟩) j := by
  have hstart := hg.before.le
  have hep := hk.chain.firstHeader_le
  have htotal := hg.total
  have hlarge := hg.large
  rintro ((⟨d, hd, hs⟩ | hs) | hs)
  · rcases lastNode_eq_or_mem ls d with hl | hx
    · rw [hl] at hs
      rcases hj with hj | ⟨c, hc, hj⟩ <;>
      · simp only [InWord, prologNode, prologEnd, wordSize, nodeSize, Bucket.count] at *
        omega
    · have := hg.listed_below hk hd hx
      rcases hj with hj | ⟨c, hc, hj⟩ <;>
      · simp only [InWord, prologNode, prologEnd, firstBlock, overhead, wordSize, nodeSize,
          Bucket.count] at *
        omega
  · rcases hj with hj | ⟨c, hc, hj⟩ <;>
    · simp only [InWord, prologNode, prologEnd, firstHeader, wordSize, nodeSize,
        Bucket.count] at *
      omega
  · rcases hj with hj | ⟨c, hc, hj⟩ <;>
    · simp only [Memory.TagByte, InWord, prologNode, prologEnd, firstBlock, overhead, wordSize,
        nodeSize, minBlock, Bucket.count] at *
      omega

/-- Tagging the region leaves the lists as moving the epilog has left them. -/
theorem linked (ht : Threaded ⟨m, h.epilog + shift⟩ ls)
    (htags : m.ChangesOnly m' (Memory.TagByte (block, ⟨size, .allocated⟩))) {c : Nat}
    (hc : c < Bucket.count) : Holds ⟨m', h.epilog + shift⟩ c (ls c) := by
  have hstart := hg.before.le
  have htotal := hg.total
  have hlarge := hg.large
  refine (ht.linked c hc).of_changesOnly htags fun x hx j hj hs => ?_
  rcases mem_strand.mp hx with rfl | hx | rfl
  · simp only [Memory.TagByte, InWord, InNode, prologNode, firstBlock, prologEnd, overhead,
      wordSize, nodeSize, minBlock, Bucket.count] at *
    omega
  · have := hg.listed_below hk hc hx
    simp only [Memory.TagByte, InWord, InNode, overhead, wordSize, nodeSize, minBlock] at *
    omega
  · simp only [Memory.TagByte, InWord, InNode, epilogNode, overhead, wordSize, nodeSize,
      minBlock] at *
    omega

/-- With the epilog moved and the region tagged, the heap is consistent again. -/
theorem consistent (ht : Threaded ⟨m, h.epilog + shift⟩ ls) (hz : m.word (h.epilog + shift) = 0)
    (htags : m.ChangesOnly m' (Memory.TagByte (block, ⟨size, .allocated⟩)))
    (hmark : m'.Marked (block, ⟨size, .allocated⟩))
    (hall : h.mem.ChangesOnly m' (GrowthByte ls (h.epilog + shift) (block, ⟨size, .allocated⟩)))
    (hfit : h.epilog + shift + epilogBytes ≤ h.size) :
    Consistent ⟨m', h.epilog + shift⟩ (pre ++ [(block, ⟨size, .allocated⟩)]) ls := by
  have hsz : (⟨m', h.epilog + shift⟩ : Heap).size = h.size := hall.size
  refine ⟨chain_iff.mpr ⟨?_, fun b hb => ?_, ?_⟩, fun c hc => hg.linked hk ht htags hc,
    fun c hc x hx => ?_, hk.nodup, hsz ▸ hfit, hsz ▸ hk.small⟩
  · refine tiles_append.mpr ⟨block, hg.before, tiles_singleton.mpr ⟨rfl, hg.large, ?_⟩⟩
    have := hg.total
    show block + size = h.epilog + shift + wordSize
    omega
  · rcases List.mem_append.mp hb with hb | hb
    · exact (hk.chain.marked (List.mem_append_left _ hb)).of_changesOnly hall
        fun j => hg.not_growthByte_of_tagByte hk hb
    · rw [List.mem_singleton.mp hb]
      exact hmark
  · have htotal := hg.total
    have hlarge := hg.large
    refine (htags.word fun j hj hs => ?_).trans hz
    simp only [Memory.TagByte, InWord, overhead, wordSize, minBlock] at *
    omega
  · obtain ⟨tag, hmem, hf, hb⟩ := hk.listed c hc x hx
    refine ⟨tag, List.mem_append_left _ ?_, hf, hb⟩
    exact (List.mem_append.mp hmem).resolve_right fun hmid => hg.unlisted _ hmid c hc hx

/-- Tags and sentinels are as the allocator writes them if they were so before. -/
theorem exact (he : h.Exact (pre ++ mid))
    (hsucc : ∀ c < Bucket.count, m.succLink (epilogNode ⟨m, h.epilog + shift⟩ c) = 0)
    (htags : m.ChangesOnly m' (Memory.TagByte (block, ⟨size, .allocated⟩)))
    (hheader : m'.word (block - wordSize) = (⟨size, .allocated⟩ : Tag).word)
    (hall : h.mem.ChangesOnly m' (GrowthByte ls (h.epilog + shift) (block, ⟨size, .allocated⟩))) :
    Exact ⟨m', h.epilog + shift⟩ (pre ++ [(block, ⟨size, .allocated⟩)]) := by
  refine ⟨fun b hb => ?_, fun c hc => ?_, fun c hc => ?_, ?_⟩
  · rcases List.mem_append.mp hb with hb | hb
    · refine (hall.word fun j hj => hg.not_growthByte_of_tagByte hk hb (.inl hj)).trans ?_
      exact he.headers b (List.mem_append_left _ hb)
    · rw [List.mem_singleton.mp hb]
      exact hheader
  · exact (Memory.predLink_eq hall fun j hj =>
      hg.not_growthByte_of_prolog hk (.inr ⟨c, hc, hj⟩)).trans (he.prologPred c hc)
  · have htotal := hg.total
    have hlarge := hg.large
    refine (Memory.succLink_eq htags fun j hj hs => ?_).trans (hsucc c hc)
    simp only [Memory.TagByte, InWord, epilogNode, overhead, wordSize, nodeSize, minBlock] at *
    omega
  · exact (hall.word fun j hj => hg.not_growthByte_of_prolog hk (.inl hj)).trans he.prologFooter

end GrowthRegion

/-- Moving the epilog by `shift` and retagging the region as one allocated block that reaches the
new epilog header. -/
theorem Consistent.grow (hk : h.Consistent (pre ++ mid) ls) {block size shift : Nat}
    (hg : h.GrowthRegion pre mid ls block size shift)
    (henc : (⟨size, .allocated⟩ : Tag).Encodable)
    (hfit : h.epilog + shift + epilogBytes ≤ h.size) :
    ∃ m m', h.moveEpilog shift = .ok ⟨m, h.epilog + shift⟩ ∧
      m.setTags block size .allocated = .ok m' ∧
      Consistent ⟨m', h.epilog + shift⟩ (pre ++ [(block, ⟨size, .allocated⟩)]) ls ∧
      (h.Exact (pre ++ mid) →
        Exact ⟨m', h.epilog + shift⟩ (pre ++ [(block, ⟨size, .allocated⟩)])) ∧
      h.mem.ChangesOnly m' (GrowthByte ls (h.epilog + shift) (block, ⟨size, .allocated⟩)) := by
  have hstart := hg.before.le
  have hblock := hg.region.le
  have htotal := hg.total
  have hep := hk.chain.firstHeader_le
  obtain ⟨m, hm, ht, hz, hsucc, hch⟩ := hk.threaded.moveEpilog shift
    (fun c hc x hx => by
      have := hg.listed_below hk hc hx
      simp only [nodeSize, wordSize, minBlock] at *
      omega)
    (by simp only [firstHeader] at hep; omega) hfit (Nat.le_succ_of_le (Nat.le_trans hfit hk.small))
  have hms : m.size = h.size := hch.size
  have hwb : wordSize ≤ block := by
    simp only [firstBlock, overhead, wordSize] at *
    omega
  have hwe : block + size ≤ m.size + wordSize := by
    simp only [epilogBytes, wordSize, nodeSize, Bucket.count] at *
    omega
  obtain ⟨m', hset, htags, hmark, hheader⟩ := Memory.setTags_spec
    (b := (block, ⟨size, .allocated⟩)) henc hwb hg.large hwe (hms ▸ hk.small)
  have hall : h.mem.ChangesOnly m'
      (GrowthByte ls (h.epilog + shift) (block, ⟨size, .allocated⟩)) :=
    (hch.mono fun _ => .inl).trans (htags.mono fun _ => .inr)
  refine ⟨m, m', hm, hset, ?_, fun he => ?_, hall⟩
  · exact hg.consistent hk ht hz htags hmark hall hfit
  · exact hg.exact hk he hsucc htags hheader hall

end Heap

end SegFit
