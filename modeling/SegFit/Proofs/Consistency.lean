/-
  Blocks and lists together.  In a consistent heap the blocks form a chain and the lists are
  linked and hold free blocks of it, each in its own bucket; free blocks may be on no list,
  and neighbours may both be free, as happens in the middle of an operation.  Links lie in
  free blocks and sentinels and tags between payloads, so list operations keep the chain
  (`Consistent.unlink`, `Consistent.pushFree`), and retagging a stretch of blocks that holds no
  listed one keeps the lists (`Consistent.replace`).
-/
import SegFit.Heap.WellFormed
import SegFit.Proofs.Sentinels
import SegFit.Proofs.Tiling

namespace SegFit

namespace Heap

/-- The lists hold free blocks of `cs`, each that of its own bucket. -/
def Listed (cs : List TaggedBlock) (ls : Nat → List Nat) : Prop :=
  ∀ b < Bucket.count, ∀ x ∈ ls b, ∃ tag, (x, tag) ∈ cs ∧ tag.isFree ∧ Bucket.ofSize tag.size = b

/-- The blocks `cs` form a chain, and the lists `ls` hold free blocks of it. -/
structure Consistent (h : Heap) (cs : List TaggedBlock) (ls : Nat → List Nat) : Prop where
  chain : h.Chain firstBlock cs
  linked : ∀ b < Bucket.count, h.Holds b (ls b)
  listed : Listed cs ls
  nodup : ∀ b < Bucket.count, (ls b).Nodup
  room : h.epilog + epilogBytes ≤ h.size
  small : h.size ≤ maxWord

/-- The blocks `cs` form a chain, the lists `ls` hold free blocks of it, and all of them lie in the
store. -/
structure Legible (h : Heap) (cs : List TaggedBlock) (ls : Nat → List Nat) : Prop where
  chain : h.Chain firstBlock cs
  linked : ∀ b < Bucket.count, h.Holds b (ls b)
  listed : Listed cs ls
  nodup : ∀ b < Bucket.count, (ls b).Nodup
  room : h.epilog ≤ h.size

/-- The bytes that the structure of a heap rests on: links of sentinels, tags, links of free
blocks, and all from the epilog header on. -/
def StructByte (h : Heap) (cs : List TaggedBlock) (j : Nat) : Prop :=
  (∃ b < Bucket.count, InWord (prologNode b + wordSize) j) ∨ h.epilog ≤ j ∨
    ∃ b ∈ cs, Memory.TagByte b j ∨ (b.2.isFree ∧ InNode b.1 j)

/-- Tags and sentinels are as the allocator writes them, down to the bits that no reader
looks at. -/
structure Exact (h : Heap) (cs : List TaggedBlock) : Prop where
  headers : ∀ b ∈ cs, h.mem.word (b.1 - wordSize) = b.2.word
  prologPred : ∀ b < Bucket.count, h.mem.predLink (prologNode b) = 0
  epilogSucc : ∀ b < Bucket.count, h.mem.succLink (h.epilogNode b) = 0
  prologFooter : h.mem.word prologEnd = 0

variable {h : Heap} {cs : List TaggedBlock} {ls : Nat → List Nat}

/-- Where a block of a chain lies. -/
theorem Chain.bounds (hc : h.Chain firstBlock cs) {b : TaggedBlock} (hb : b ∈ cs) :
    firstBlock ≤ b.1 ∧ b.1 + b.2.size ≤ h.epilog + wordSize ∧ minBlock ≤ b.2.size :=
  hc.tiles.bounds hb

theorem Chain.firstHeader_le (hc : h.Chain firstBlock cs) : firstHeader ≤ h.epilog := by
  have := hc.le
  simp only [firstBlock, firstHeader, overhead, wordSize] at *
  omega

/-- No tag of a chain lies in the links of one of its blocks. -/
theorem Chain.not_inNode_of_tagByte (hc : h.Chain firstBlock cs) {b c : TaggedBlock}
    (hb : b ∈ cs) (hcc : c ∈ cs) {j : Nat} (hj : Memory.TagByte b j) : ¬ InNode c.1 j := by
  have h1 := hc.bounds hb
  have h2 := hc.bounds hcc
  simp only [Memory.TagByte, InWord, InNode, firstBlock, prologEnd, minBlock, nodeSize, wordSize,
    overhead, Bucket.count] at *
  rcases hc.tiles.eq_or_apart hb hcc with rfl | h3 | h3 <;> omega

theorem Consistent.legible (hk : h.Consistent cs ls) : h.Legible cs ls :=
  ⟨hk.chain, hk.linked, hk.listed, hk.nodup, Nat.le_trans (Nat.le_add_right ..) hk.room⟩

namespace Consistent

/-- The nodes of the lists share no byte with one another or with a sentinel. -/
theorem threaded (hk : h.Consistent cs ls) : h.Threaded ls := by
  have hbound : ∀ b < Bucket.count, ∀ x ∈ ls b,
      firstBlock ≤ x ∧ x + minBlock ≤ h.epilog + wordSize := by
    intro b hb x hx
    obtain ⟨tag, hm, -⟩ := hk.listed b hb x hx
    have := hk.chain.bounds hm
    simp only at this
    omega
  have happart : ∀ b < Bucket.count, ∀ c < Bucket.count, ∀ x ∈ ls b, ∀ y ∈ ls c,
      x = y ∧ b = c ∨ Apart x y := by
    intro b hb c hc x hx y hy
    obtain ⟨t, hxm, -, hxb⟩ := hk.listed b hb x hx
    obtain ⟨u, hym, -, hyb⟩ := hk.listed c hc y hy
    have h1 := (hk.chain.bounds hxm).2.2
    have h2 := (hk.chain.bounds hym).2.2
    rcases hk.chain.tiles.eq_or_apart hxm hym with he | h3
    · obtain ⟨rfl, rfl⟩ := Prod.mk.inj he
      exact .inl ⟨rfl, hxb.symm.trans hyb⟩
    · right
      simp only [Apart, nodeSize, wordSize, minBlock] at *
      omega
  have hends : ∀ b < Bucket.count, ∀ x ∈ ls b, ∀ c < Bucket.count,
      Apart (prologNode c) x ∧ Apart x (h.epilogNode c) := by
    intro b hb x hx c hc
    have := hbound b hb x hx
    simp only [Apart, prologNode, epilogNode, firstBlock, prologEnd, minBlock, nodeSize, wordSize,
      overhead, Bucket.count] at *
    omega
  have he : prologEnd ≤ h.epilog := by
    have := hk.chain.firstHeader_le
    simp only [firstHeader] at this
    omega
  have hin : ∀ b < Bucket.count, ∀ x ∈ h.strand ls b, x + nodeSize ≤ h.size := by
    intro b hb x hx
    have hroom := hk.room
    rcases mem_strand.mp hx with rfl | hx | rfl
    · simp only [prologNode, prologEnd, epilogBytes, nodeSize, wordSize, Bucket.count] at *
      omega
    · have := hbound b hb x hx
      simp only [epilogBytes, minBlock, nodeSize, wordSize, Bucket.count] at *
      omega
    · simp only [epilogNode, epilogBytes, nodeSize, wordSize, Bucket.count] at *
      omega
  refine ⟨hk.linked, fun b hb => ?_, fun b hb c hc hbc x hx y hy => ?_, hin, fun b hb x hx => ?_⟩
  · refine List.pairwise_append.mpr ⟨.cons (fun x hx => (hends b hb x hx b hb).1) ?_,
      List.pairwise_singleton _ _, fun x hx y hy => ?_⟩
    · refine List.Pairwise.imp_of_mem (fun hx hy hne => ?_) (hk.nodup b hb)
      exact (happart b hb b hb _ hx _ hy).resolve_left fun h => hne h.1
    · rw [List.mem_singleton.mp hy]
      rcases List.mem_cons.mp hx with rfl | hx
      · exact apart_sentinels he hb
      · exact (hends b hb x hx b hb).2
  · rcases mem_strand.mp hx with rfl | hx | rfl <;> rcases mem_strand.mp hy with rfl | hy | rfl
    · exact apart_prologNode hbc
    · exact (hends c hc y hy b hb).1
    · exact apart_sentinels he hb
    · exact (hends b hb x hx c hc).1.symm
    · exact (happart b hb c hc x hx y hy).resolve_left fun h => hbc h.2
    · exact (hends b hb x hx c hc).2
    · exact (apart_sentinels he hc).symm
    · exact (hends c hc y hy b hb).2.symm
    · exact apart_epilogNode h hbc
  · have h1 := hin b hb x hx
    have h2 := hk.small
    omega

end Consistent

/-! ## Links among the bytes of a chain -/

/-- Links are part of the structure. -/
theorem structByte_of_linkByte (hl : Listed cs ls) {j : Nat} (hj : h.LinkByte ls j) :
    h.StructByte cs j := by
  obtain ⟨b, hb, hj | ⟨x, hx, hj⟩ | hj⟩ := hj
  · exact .inl ⟨b, hb, hj⟩
  · obtain ⟨tag, hm, hf, -⟩ := hl b hb x hx
    exact .inr (.inr ⟨_, hm, .inr ⟨hf, hj⟩⟩)
  · refine .inr (.inl ?_)
    simp only [InWord, epilogNode, wordSize] at hj
    omega

/-- No tag lies in a link. -/
theorem Chain.not_linkByte_of_tagByte (hc : h.Chain firstBlock cs) (hl : Listed cs ls)
    {b : TaggedBlock} (hb : b ∈ cs) {j : Nat} (hj : Memory.TagByte b j) : ¬ h.LinkByte ls j := by
  have hbb := hc.bounds hb
  rintro ⟨c, hlt, hs | ⟨x, hx, hs⟩ | hs⟩
  · simp only [Memory.TagByte, InWord, prologNode, firstBlock, prologEnd, minBlock, nodeSize,
      wordSize, overhead, Bucket.count] at *
    omega
  · obtain ⟨tag, hm, -⟩ := hl c hlt x hx
    exact hc.not_inNode_of_tagByte hb hm hj hs
  · simp only [Memory.TagByte, InWord, epilogNode, firstBlock, prologEnd, minBlock, nodeSize,
      wordSize, overhead, Bucket.count] at *
    omega

/-- The bytes of sentinels that no operation changes. -/
def IdleByte (h : Heap) (j : Nat) : Prop :=
  InWord prologEnd j ∨ ∃ b < Bucket.count,
    InWord (prologNode b) j ∨ InWord (h.epilogNode b + wordSize) j

theorem Exact.of_changesOnly (he : h.Exact cs) {m : Memory} {S : Nat → Prop}
    (hm : h.mem.ChangesOnly m S) (hi : ∀ j, h.IdleByte j → ¬ S j) {ds : List TaggedBlock}
    (hd : ∀ b ∈ ds, m.word (b.1 - wordSize) = b.2.word ∨
      b ∈ cs ∧ ∀ j, Memory.TagByte b j → ¬ S j) : ({ h with mem := m } : Heap).Exact ds := by
  refine ⟨fun b hb => ?_, fun b hb => ?_, fun b hb => ?_, ?_⟩
  · rcases hd b hb with hw | ⟨hb, hw⟩
    · exact hw
    · exact (hm.word fun j hj => hw j (.inl hj)).trans (he.headers b hb)
  · exact (Memory.predLink_eq hm fun j hj => hi j (.inr ⟨b, hb, .inl hj⟩)).trans
      (he.prologPred b hb)
  · exact (Memory.succLink_eq hm fun j hj => hi j (.inr ⟨b, hb, .inr hj⟩)).trans
      (he.epilogSucc b hb)
  · exact (hm.word fun j hj => hi j (.inl hj)).trans he.prologFooter

/-- What lies around the links is in none of them. -/
theorem Chain.not_linkByte_of_idleByte (hc : h.Chain firstBlock cs) (hl : Listed cs ls) {j : Nat}
    (hj : h.IdleByte j ∨ InWord h.epilog j) : ¬ h.LinkByte ls j := by
  have hep := hc.firstHeader_le
  rintro ⟨c, hlt, hs | ⟨x, hx, hs⟩ | hs⟩
  · rcases hj with (hj | ⟨b, hb, hj⟩) | hj <;>
    · simp only [InWord, prologNode, epilogNode, firstHeader, prologEnd, nodeSize, wordSize,
        Bucket.count] at *
      omega
  · obtain ⟨tag, hm, -⟩ := hl c hlt x hx
    have := hc.bounds hm
    rcases hj with (hj | ⟨b, hb, hj⟩) | hj <;>
    · simp only [InWord, InNode, prologNode, epilogNode, firstBlock, firstHeader, prologEnd,
        minBlock, nodeSize, wordSize, overhead, Bucket.count] at *
      omega
  · rcases hj with (hj | ⟨b, hb, hj⟩) | hj <;>
    · simp only [InWord, prologNode, epilogNode, firstHeader, prologEnd, nodeSize, wordSize,
        Bucket.count] at *
      omega

/-- A chain stays when only links change. -/
theorem Chain.of_changesOnly {start : Nat} (hc : h.Chain start cs) {m : Memory} {S : Nat → Prop}
    (hm : h.mem.ChangesOnly m S) (ht : ∀ b ∈ cs, ∀ j, Memory.TagByte b j → ¬ S j)
    (hz : ∀ j, InWord h.epilog j → ¬ S j) : ({ h with mem := m } : Heap).Chain start cs := by
  refine chain_iff.mpr ⟨hc.tiles, fun b hb => (hc.marked hb).of_changesOnly hm (ht b hb), ?_⟩
  exact (hm.word hz).trans hc.zero

/-! ## List operations -/

theorem LinkByte.of_subset {ls' : Nat → List Nat} (hs : ∀ b, ∀ x ∈ ls' b, x ∈ ls b) {j : Nat}
    (hj : h.LinkByte ls' j) : h.LinkByte ls j := by
  obtain ⟨b, hb, hj | ⟨x, hx, hj⟩ | hj⟩ := hj
  · exact ⟨b, hb, .inl hj⟩
  · exact ⟨b, hb, .inr (.inl ⟨x, hs b x hx, hj⟩)⟩
  · exact ⟨b, hb, .inr (.inr hj)⟩

theorem mem_of_mem_dropNode {x y b : Nat} (hy : y ∈ dropNode ls x b) : y ∈ ls b :=
  List.mem_of_mem_erase hy

theorem mem_pushNode {x y b c : Nat} :
    y ∈ pushNode ls b x c ↔ (c = b ∧ y = x) ∨ y ∈ ls c := by
  unfold pushNode
  split
  · rename_i h
    simp [h]
  · rename_i h
    simp [h]

namespace Consistent

/-- Rewriting links so that other lists are linked keeps the heap consistent. -/
theorem relink (hk : h.Consistent cs ls) {ls' : Nat → List Nat} {m : Memory}
    (ht : Threaded ⟨m, h.epilog⟩ ls') (hl : Listed cs ls') (hn : ∀ b < Bucket.count, (ls' b).Nodup)
    (hm : h.mem.ChangesOnly m (h.LinkByte ls')) :
    Consistent ⟨m, h.epilog⟩ cs ls' ∧ (h.Exact cs → Exact ⟨m, h.epilog⟩ cs) := by
  have htag : ∀ b ∈ cs, ∀ j, Memory.TagByte b j → ¬ h.LinkByte ls' j :=
    fun b hb j => hk.chain.not_linkByte_of_tagByte hl hb
  have hidle : ∀ j, h.IdleByte j ∨ InWord h.epilog j → ¬ h.LinkByte ls' j :=
    fun j => hk.chain.not_linkByte_of_idleByte hl
  have hs : (⟨m, h.epilog⟩ : Heap).size = h.size := hm.size
  refine ⟨⟨?_, ht.linked, hl, hn, hs ▸ hk.room, hs ▸ hk.small⟩, fun he => ?_⟩
  · exact hk.chain.of_changesOnly hm htag fun j hj => hidle j (.inr hj)
  · exact he.of_changesOnly hm (fun j hj => hidle j (.inl hj)) fun b hb => .inr ⟨hb, htag b hb⟩

/-- Taking a block off its list keeps the heap consistent. -/
theorem unlink (hk : h.Consistent cs ls) {b x : Nat} (hb : b < Bucket.count) (hx : x ∈ ls b) :
    ∃ m, h.mem.unlink x = .ok m ∧ Consistent ⟨m, h.epilog⟩ cs (dropNode ls x) ∧
      (h.Exact cs → Exact ⟨m, h.epilog⟩ cs) ∧ h.mem.ChangesOnly m (h.LinkByte (dropNode ls x)) := by
  obtain ⟨m, hm, ht, hc⟩ := hk.threaded.unlink hb hx
  obtain ⟨hk', he⟩ := hk.relink ht (fun c hc y hy => hk.listed c hc y (mem_of_mem_dropNode hy))
    (fun c hc => (hk.nodup c hc).sublist List.erase_sublist) hc
  exact ⟨m, hm, hk', he, hc⟩

/-- Putting a free block that is on no list at the front of its bucket's keeps the heap
consistent. -/
theorem pushFree (hk : h.Consistent cs ls) {x : Nat} {tag : Tag} (hx : (x, tag) ∈ cs)
    (hf : tag.isFree) (hn : ∀ b < Bucket.count, x ∉ ls b) :
    ∃ m, h.mem.pushFree x tag.size = .ok m ∧
      Consistent ⟨m, h.epilog⟩ cs (pushNode ls (Bucket.ofSize tag.size) x) ∧
      (h.Exact cs → Exact ⟨m, h.epilog⟩ cs) ∧
      h.mem.ChangesOnly m (h.LinkByte (pushNode ls (Bucket.ofSize tag.size) x)) := by
  have hbx := hk.chain.bounds hx
  have hroom := hk.room
  have hsmall := hk.small
  have hapart : ∀ c < Bucket.count, ∀ y ∈ h.strand ls c, Apart x y := by
    intro c hc y hy
    rcases mem_strand.mp hy with rfl | hy | rfl
    · simp only [Apart, prologNode, firstBlock, prologEnd, nodeSize, wordSize, overhead,
        Bucket.count] at *
      omega
    · obtain ⟨u, hyu, -⟩ := hk.listed c hc y hy
      have hby := hk.chain.bounds hyu
      rcases hk.chain.tiles.eq_or_apart hx hyu with he | he
      · obtain ⟨rfl, -⟩ := Prod.mk.inj he
        exact absurd hy (hn c hc)
      · simp only [Apart, minBlock, nodeSize, wordSize] at *
        omega
    · simp only [Apart, epilogNode, minBlock, nodeSize, wordSize] at *
      omega
  have hin : x + nodeSize ≤ h.size := by
    simp only [epilogBytes, minBlock, nodeSize, wordSize, Bucket.count] at *
    omega
  obtain ⟨m, hm, ht, hc⟩ := hk.threaded.pushFree tag.size hapart hin (by omega)
  have hl : Listed cs (pushNode ls (Bucket.ofSize tag.size) x) := by
    intro c hcc y hy
    rcases mem_pushNode.mp hy with ⟨hcb, rfl⟩ | hy
    · exact ⟨tag, hx, hf, hcb.symm⟩
    · exact hk.listed c hcc y hy
  have hnodup : ∀ c < Bucket.count, (pushNode ls (Bucket.ofSize tag.size) x c).Nodup := by
    intro c hcc
    unfold pushNode
    split
    · exact List.nodup_cons.mpr ⟨hn c hcc, hk.nodup c hcc⟩
    · exact hk.nodup c hcc
  obtain ⟨hk', he⟩ := hk.relink ht hl hnodup hc
  exact ⟨m, hm, hk', he, hc⟩

/-! ## Retagging -/

variable {pre mid post news : List TaggedBlock} {start stop : Nat}

/-- Listed blocks lie around a stretch that holds none. -/
theorem listed_outside (hk : h.Consistent (pre ++ mid ++ post) ls)
    (hfree : ∀ b ∈ mid, ∀ c < Bucket.count, b.1 ∉ ls c) : Listed (pre ++ post) ls := by
  intro c hc x hx
  obtain ⟨tag, hmem, hf, hb⟩ := hk.listed c hc x hx
  refine ⟨tag, ?_, hf, hb⟩
  simp only [List.mem_append] at hmem ⊢
  rcases hmem with (hmem | hmem) | hmem
  · exact .inl hmem
  · exact absurd hx (hfree _ hmem c hc)
  · exact .inr hmem

/-- Changes inside a stretch that holds no listed block keep all lists linked. -/
theorem linked_outside (hk : h.Consistent (pre ++ mid ++ post) ls)
    (hpre : Tiles firstBlock pre start) (hle : start ≤ stop)
    (hpost : Tiles stop post (h.epilog + wordSize))
    (hfree : ∀ b ∈ mid, ∀ c < Bucket.count, b.1 ∉ ls c) {m : Memory} {S : Nat → Prop}
    (hm : h.mem.ChangesOnly m S) (hS : ∀ j, S j → start ≤ j + wordSize ∧ j + wordSize < stop)
    {c : Nat} (hc : c < Bucket.count) : Holds ⟨m, h.epilog⟩ c (ls c) := by
  have hstart := hpre.le
  have hstop := hpost.le
  refine (hk.linked c hc).of_changesOnly hm fun x hx j hj hs => ?_
  have h2 := hS j hs
  rcases mem_strand.mp hx with rfl | hx | rfl
  · simp only [InNode, prologNode, firstBlock, prologEnd, nodeSize, wordSize, overhead,
      Bucket.count] at *
    omega
  · obtain ⟨tag, hmem, -⟩ := hk.listed_outside hfree c hc x hx
    have h1 := hpre.outside hle hpost hmem
    simp only [InNode, minBlock, nodeSize, wordSize] at *
    omega
  · simp only [InNode, epilogNode, nodeSize, wordSize] at *
    omega

/-- Exchanging a stretch of blocks that holds no listed block keeps the heap consistent, if the
store changes inside the stretch only and holds the tags of the new blocks. -/
theorem replace (hk : h.Consistent (pre ++ mid ++ post) ls) (hpre : Tiles firstBlock pre start)
    (hmid : Tiles start mid stop) (hpost : Tiles stop post (h.epilog + wordSize))
    (hnews : Tiles start news stop) (hfree : ∀ b ∈ mid, ∀ c < Bucket.count, b.1 ∉ ls c)
    {m : Memory} {S : Nat → Prop} (hm : h.mem.ChangesOnly m S)
    (hS : ∀ j, S j → start ≤ j + wordSize ∧ j + wordSize < stop) (hmark : ∀ b ∈ news, m.Marked b) :
    Consistent ⟨m, h.epilog⟩ (pre ++ news ++ post) ls ∧
      ((∀ b ∈ news, m.word (b.1 - wordSize) = b.2.word) → h.Exact (pre ++ mid ++ post) →
        Exact ⟨m, h.epilog⟩ (pre ++ news ++ post)) := by
  have hstart := hpre.le
  have hstop := hpost.le
  have hsz : (⟨m, h.epilog⟩ : Heap).size = h.size := hm.size
  have htag : ∀ b ∈ pre ++ post, ∀ j, Memory.TagByte b j → ¬ S j := by
    intro b hb j hj hs
    have h1 := hpre.outside hmid.le hpost hb
    have h2 := hS j hs
    simp only [Memory.TagByte, InWord, firstBlock, prologEnd, minBlock, nodeSize, wordSize,
      overhead, Bucket.count] at *
    omega
  have hold : ∀ b ∈ pre ++ post, b ∈ pre ++ mid ++ post := by
    intro b hb
    rcases List.mem_append.mp hb with hb | hb <;> simp [hb]
  have hcases : ∀ b ∈ pre ++ news ++ post, b ∈ news ∨ b ∈ pre ++ post := by
    intro b hb
    simp only [List.mem_append] at hb ⊢
    rcases hb with (hb | hb) | hb
    · exact .inr (.inl hb)
    · exact .inl hb
    · exact .inr (.inr hb)
  refine ⟨⟨chain_iff.mpr ⟨?_, fun b hb => ?_, ?_⟩,
    fun c hc => hk.linked_outside hpre hmid.le hpost hfree hm hS hc, fun c hc x hx => ?_, hk.nodup,
    hsz ▸ hk.room, hsz ▸ hk.small⟩, fun hexact he => ?_⟩
  · exact tiles_stretches.mpr ⟨start, stop, hpre, hnews, hpost⟩
  · rcases hcases b hb with hb | hb
    · exact hmark b hb
    · exact (hk.chain.marked (hold b hb)).of_changesOnly hm (htag b hb)
  · refine (hm.word fun j hj hs => ?_).trans hk.chain.zero
    have := hS j hs
    simp only [InWord, wordSize] at *
    omega
  · obtain ⟨tag, hmem, hf, hb⟩ := hk.listed_outside hfree c hc x hx
    refine ⟨tag, ?_, hf, hb⟩
    rcases List.mem_append.mp hmem with hmem | hmem <;> simp [hmem]
  · refine he.of_changesOnly hm (fun j hj hs => ?_) fun b hb => ?_
    · have h2 := hS j hs
      rcases hj with hj | ⟨c, hc, hj | hj⟩ <;>
      · simp only [InWord, prologNode, epilogNode, firstBlock, prologEnd, nodeSize, wordSize,
          overhead, Bucket.count] at *
        omega
    · rcases hcases b hb with hb | hb
      · exact .inl (hexact b hb)
      · exact .inr ⟨hold b hb, htag b hb⟩

end Consistent

end Heap

end SegFit
