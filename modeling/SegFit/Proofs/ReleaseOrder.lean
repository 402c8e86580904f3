/-
  The order of releases.  Whatever the order in which some of the live allocations are released,
  the heap that is left has the blocks that it had, these marked free and merged with what is
  free beside them (`Heap.Vacates`).  So all orders leave the same layout, counters and sets of
  listed blocks; what else there is in the store can differ only in links, and inside free blocks
  where blocks that have been merged had their tags and links (`Reachable.release_order`).
-/
import SegFit.Proofs.Coalescing
import SegFit.Proofs.Figures
import SegFit.Proofs.Likeness

namespace SegFit

open Heap

variable {cs pre post : List TaggedBlock} {prev next : Option TaggedBlock} {b c : TaggedBlock}
  {ps qs : List Nat} {j : Nat}

namespace Heap

variable {h h' h₁ h₂ : Heap} {ls ls' : Nat → List Nat}

/-! ## Bytes of free blocks -/

/-- Freeing blocks adds their links to the structure. -/
theorem StructByte.freed (hj : h.StructByte cs j) (ps : List Nat) :
    h.StructByte (freed ps cs) j := by
  rcases hj with hj | hj | ⟨b, hb, hj⟩
  · exact .inl hj
  · exact .inr (.inl hj)
  · refine .inr (.inr ⟨_, List.mem_map_of_mem hb, ?_⟩)
    split
    · exact hj.imp_right fun hj => ⟨rfl, hj.2⟩
    · exact hj

/-- The structure of a merged block is that of its parts. -/
theorem Around.structByte_merged (ha : Around cs pre prev b next post) {start stop : Nat}
    (ht : Tiles start (prev.toList ++ b :: next.toList) stop)
    (hj : Memory.TagByte (merged prev b next) j ∨
      (merged prev b next).2.isFree ∧ InNode (merged prev b next).1 j) :
    ∃ c ∈ prev.toList ++ (b.1, ⟨b.2.size, .free⟩) :: next.toList,
      Memory.TagByte c j ∨ c.2.isFree ∧ InNode c.1 j := by
  obtain ⟨first, hfirst, hstart⟩ := exists_merged_start prev b next
  have hfree : first.2.isFree := by
    rcases List.mem_append.mp hfirst with hf | hf
    · exact ha.prev first (Option.mem_toList.mp hf)
    · rcases List.mem_cons.mp hf with rfl | hf
      · rfl
      · exact ha.next first (Option.mem_toList.mp hf)
  obtain ⟨last, hlast, hstop⟩ : ∃ c ∈ prev.toList ++ (b.1, ⟨b.2.size, .free⟩) :: next.toList,
      c.1 + c.2.size = (merged prev b next).1 + (merged prev b next).2.size := by
    obtain ⟨rfl, -, rfl⟩ := tiles_merged ht
    obtain ⟨-, -, hn⟩ := tiles_around.mp ht
    cases next with
    | none => exact ⟨(b.1, ⟨b.2.size, .free⟩), by simp, hn⟩
    | some d => exact ⟨d, by simp, hn.1 ▸ hn.2.2⟩
  rcases hj with (hj | hj) | ⟨-, hj⟩
  · exact ⟨first, hfirst, .inl (.inl (hstart ▸ hj))⟩
  · exact ⟨last, hlast, .inl (.inr (hstop ▸ hj))⟩
  · exact ⟨first, hfirst, .inr ⟨hfree, hstart ▸ hj⟩⟩

/-! ## Giving blocks back -/

/-- From a heap with the blocks `cs` to one in which those at `ps` are free as well, and merged
with what is free beside them. -/
structure Vacates (h : Heap) (cs : List TaggedBlock) (ps : List Nat) (h' : Heap) : Prop where
  sound : ∃ ls, h'.Sound (coalesce (freed ps cs)) ls
  epilog : h'.epilog = h.epilog
  exact : h.Exact cs → h'.Exact (coalesce (freed ps cs))
  frame : ∀ j, ¬ h.StructByte (freed ps cs) j → h'.mem.byte j = h.mem.byte j

theorem Vacates.refl (hs : h.Sound cs ls) : h.Vacates cs [] h := by
  have hcs : coalesce (freed [] cs) = cs := by
    rw [freed_nil, coalesce_of_separated hs.shape.separated]
  exact ⟨⟨ls, hcs.symm ▸ hs⟩, rfl, fun he => hcs.symm ▸ he, fun _ _ => rfl⟩

/-- Giving back one block, and then others. -/
theorem Vacates.cons (hs : h.Sound cs ls) (ha : Around cs pre prev b next post)
    (hb : h.Becomes cs h₁ (pre ++ [merged prev b next] ++ post) ls')
    (hepilog : h₁.epilog = h.epilog)
    (hv : h₁.Vacates (pre ++ [merged prev b next] ++ post) ps h') :
    h.Vacates cs (b.1 :: ps) h' := by
  have ht := hs.chain.tiles
  have hcs := ha.coalesce_freed ht ps
  obtain ⟨_, _, -, hmid, -⟩ := tiles_stretches.mp (ha.blocks ▸ ht)
  -- No byte is of structure on the way that is not in the end.
  have hstruct : ∀ j, h₁.StructByte (freed ps (pre ++ [merged prev b next] ++ post)) j →
      h.StructByte (freed (b.1 :: ps) cs) j := by
    rintro j (hj | hj | ⟨c, hc, hj⟩)
    · exact .inl hj
    · exact .inr (.inl (hepilog ▸ hj))
    · refine .inr (.inr ?_)
      rw [ha.freed_cons ht]
      rw [freed_merged] at hc
      simp only [List.mem_append, List.mem_singleton] at hc
      rcases hc with (hc | rfl) | hc
      · exact ⟨c, List.mem_append_left _ (List.mem_append_left _ hc), hj⟩
      · obtain ⟨d, hd, hj⟩ := ha.structByte_merged hmid hj
        exact ⟨d, List.mem_append_left _ (List.mem_append_right _ hd), hj⟩
      · exact ⟨c, List.mem_append_right _ hc, hj⟩
  refine ⟨hcs ▸ hv.sound, hv.epilog.trans hepilog, fun he => hcs ▸ hv.exact (hb.exact he),
    fun j hj => ?_⟩
  have hafter := fun hj' => hj (hstruct j hj')
  exact (hv.frame j hafter).trans
    (hb.frame j (fun hj' => hj (hj'.freed _)) fun hj' => hafter (hj'.freed ps))

/-- The order does not matter. -/
theorem Vacates.perm (hv : h.Vacates cs ps h') (hperm : qs.Perm ps) : h.Vacates cs qs h' := by
  have hcs := freed_perm hperm cs
  exact ⟨hcs ▸ hv.sound, hv.epilog, hcs ▸ hv.exact, hcs ▸ hv.frame⟩

/-- When no block stays in use, all is one free block. -/
theorem Vacates.whole (hv : h.Vacates cs ps h')
    (hall : ∀ b ∈ cs, b.2.status = .allocated → b.1 ∈ ps) :
    coalesce (freed ps cs) = [] ∨ ∃ n, coalesce (freed ps cs) = [(firstBlock, ⟨n, .free⟩)] ∧
      firstBlock + n = h'.epilog + wordSize := by
  obtain ⟨ls', hs'⟩ := hv.sound
  have ht := hs'.chain.tiles
  have hfree : ∀ c ∈ freed ps cs, c.2.isFree := by
    intro c hc
    obtain ⟨b, hb, rfl⟩ := List.mem_map.mp hc
    split
    · rfl
    · rename_i hp
      cases hstatus : b.2.status with
      | free => exact Tag.isFree_iff.mpr hstatus
      | allocated => exact absurd (hall b hb hstatus) hp
  cases hcs : freed ps cs with
  | nil => exact .inl rfl
  | cons c ds =>
    rw [hcs] at hfree ht
    rw [coalesce_of_free hfree] at ht ⊢
    obtain ⟨hstart, -, hend⟩ := tiles_singleton.mp ht
    exact .inr ⟨_, by rw [← hstart], hend⟩

/-! ## What differs -/

/-- Byte `j` is in the payload of a free block of `bs'`, and in a word that is a tag or a link of
one of the blocks `bs` when that is free. -/
def Leftover (bs bs' : List Block) (j : Nat) : Prop :=
  (∃ c ∈ bs', c.isFree ∧ c.offset ≤ j ∧ j + overhead < c.offset + c.size) ∧
    ∃ b ∈ bs, ∃ i, InWord i j ∧ (i = b.offset - wordSize ∨ i = b.offset ∨
      i = b.offset + wordSize ∨ i = b.offset + b.size - overhead)

/-- A byte between the first header and the epilog header is in a tag or in a payload. -/
theorem Sound.tagByte_or_payload (hs : h.Sound cs ls) (hj : firstBlock ≤ j + wordSize)
    (hlt : j < h.epilog) : ∃ b ∈ cs, Memory.TagByte b j ∨ Payload b j := by
  obtain ⟨b, hb, hle, hin⟩ := hs.chain.tiles.exists_mem hj (Nat.add_lt_add_right hlt wordSize)
  refine ⟨b, hb, ?_⟩
  simp only [Memory.TagByte, InWord, Payload, overhead, wordSize] at *
  omega

/-- A byte of a tag or a node of a block, by the word it is in. -/
theorem exists_word (hj : Memory.TagByte b j ∨ InNode b.1 j) :
    ∃ i, InWord i j ∧ (i = b.1 - wordSize ∨ i = b.1 ∨ i = b.1 + wordSize ∨
      i = b.1 + b.2.size - overhead) := by
  rcases hj with (hj | hj) | hj
  · exact ⟨_, hj, .inl rfl⟩
  · exact ⟨_, hj, .inr (.inr (.inr rfl))⟩
  · by_cases hpred : j < b.1 + wordSize
    · exact ⟨_, ⟨hj.1, hpred⟩, .inr (.inl rfl)⟩
    · refine ⟨_, ⟨Nat.le_of_not_lt hpred, ?_⟩, .inr (.inr (.inl rfl))⟩
      simp only [InNode, nodeSize, wordSize] at *
      omega

/-- The payload of a block in use has no tags and no links. -/
theorem Payload.not_struct {start stop : Nat} (ht : Tiles start cs stop) (hb : b ∈ cs)
    (hc : c ∈ cs) (hf : ¬ c.2.isFree) (hstart : overhead ≤ start) (hj : Payload c j) :
    ¬ (Memory.TagByte b j ∨ b.2.isFree ∧ InNode b.1 j) := by
  have hbb := ht.bounds hb
  have hcb := ht.bounds hc
  rcases ht.eq_or_apart hb hc with rfl | hap
  · rintro (hj' | ⟨hf', -⟩)
    · simp only [Payload, Memory.TagByte, InWord, minBlock, overhead, wordSize] at *
      omega
    · exact hf hf'
  · simp only [Payload, Memory.TagByte, InWord, InNode, minBlock, overhead, nodeSize,
      wordSize] at *
    omega

/-- Where blocks had tags and links, there are tags of the blocks left, or leftovers. -/
theorem Vacates.tagWord_or_leftover (hs : h.Sound cs ls) (hv : h.Vacates cs ps h')
    (hb : b ∈ freed ps cs) (hj : Memory.TagByte b j ∨ b.2.isFree ∧ InNode b.1 j) :
    (∃ i, h'.TagWord ((coalesce (freed ps cs)).map (viewOf h'.mem)) i ∧ InWord i j) ∨
      Leftover (cs.map (viewOf h.mem)) ((coalesce (freed ps cs)).map (viewOf h'.mem)) j := by
  obtain ⟨ls', hs'⟩ := hv.sound
  have ht := hs.chain.tiles.freed ps
  have hinside : firstBlock ≤ j + wordSize ∧ j < h'.epilog := by
    have hbb := ht.bounds hb
    have hepilog := hv.epilog
    simp only [Memory.TagByte, InWord, InNode, minBlock, overhead, nodeSize, wordSize] at *
    omega
  obtain ⟨c, hc, hcj⟩ := hs'.tagByte_or_payload hinside.1 hinside.2
  have hcv : viewOf h'.mem c ∈ (coalesce (freed ps cs)).map (viewOf h'.mem) :=
    List.mem_map_of_mem hc
  rcases hcj with (hcj | hcj) | hcj
  · exact .inl ⟨_, .inr (.inr ⟨_, hcv, .inl rfl⟩), hcj⟩
  · exact .inl ⟨_, .inr (.inr ⟨_, hcv, .inr rfl⟩), hcj⟩
  · by_cases hf : c.2.isFree
    · obtain ⟨d, hd, hoffset, hsize⟩ := exists_of_mem_freed hb
      obtain ⟨i, hi, hword⟩ := exists_word (hj.imp_right And.right)
      rw [← hoffset, ← hsize] at hword
      exact .inr ⟨⟨_, hcv, hf, hcj⟩, _, List.mem_map_of_mem hd, i, hi, hword⟩
    · -- A block in use was not merged, and it has no tags and links in its payload.
      have hc' := mem_of_mem_coalesce hc hf
      exact absurd hj (hcj.not_struct ht hb hc' hf (by decide))

/-- Two heaps after the same blocks were given back differ at most in links and leftovers. -/
theorem Vacates.byte_eq_or (hs : h.Sound cs ls) (he : h.Exact cs) (hv₁ : h.Vacates cs ps h₁)
    (hv₂ : h.Vacates cs ps h₂) (j : Nat) :
    h₁.mem.byte j = h₂.mem.byte j ∨
      (∃ i, h₁.LinkWord ((coalesce (freed ps cs)).map (viewOf h₁.mem)) i ∧ InWord i j) ∨
      Leftover (cs.map (viewOf h.mem)) ((coalesce (freed ps cs)).map (viewOf h₁.mem)) j := by
  obtain ⟨ls₁, hs₁⟩ := hv₁.sound
  obtain ⟨ls₂, hs₂⟩ := hv₂.sound
  have htag : ∀ i, h₁.TagWord ((coalesce (freed ps cs)).map (viewOf h₁.mem)) i → InWord i j →
      h₁.mem.byte j = h₂.mem.byte j :=
    fun _ hi => Memory.byte_eq_of_word (tagWord_eq hs₁ hs₂ (hv₁.exact he) (hv₂.exact he) hi)
  -- On either way nothing was written but structure.
  by_cases hj : h.StructByte (freed ps cs) j
  · rcases hj with ⟨k, hk, hj⟩ | hj | ⟨b, hb, hj⟩
    · exact .inr (.inl ⟨_, .inl ⟨k, hk, .inr (.inl rfl)⟩, hj⟩)
    · rw [← hv₁.epilog] at hj
      rcases hs₁.inWord_of_epilog_le _ hj with hj | hlink | hend
      · exact .inl (htag _ (.inr (.inl rfl)) hj)
      · exact .inr (.inl hlink)
      · have hend' : h₂.size ≤ j := (hs₁.extent_eq hs₂).2 ▸ hend
        exact .inl ((Memory.byte_of_size_le hend).trans (Memory.byte_of_size_le hend').symm)
    · rcases hv₁.tagWord_or_leftover hs hb hj with ⟨i, hi, hij⟩ | hj
      · exact .inl (htag i hi hij)
      · exact .inr (.inr hj)
  · exact .inl ((hv₁.frame j hj).trans (hv₂.frame j hj).symm)

end Heap

namespace Allocator

variable {a : Allocator} {ls : Nat → List Nat} {live : List Nat} {settings : Settings}

/-! ## Releases -/

/-- Releases the allocations `ps`, one after the other, until one is refused. -/
def releaseAll (a : Allocator) : List Nat → Except Stop (Reply Unit)
  | [] => return (.ok (), a)
  | p :: ps => do
    match ← a.release p with
    | (.ok (), a) => a.releaseAll ps
    | (.error e, a) => return (.error e, a)

/-- Releasing an allocation merges its block with its free neighbours, and counts it no more. -/
theorem release_merges (hs : a.heap.Sound cs ls) (ha : Around cs pre prev b next post)
    (hb : b.2.status = .allocated) :
    ∃ a', a.release b.1 = .ok (.ok (), a') ∧
      a.heap.Becomes cs a'.heap (pre ++ [merged prev b next] ++ post)
        (releasedLists ls prev b next) ∧ a'.heap.epilog = a.heap.epilog ∧
      a'.liveBlocks = a.liveBlocks - 1 ∧ a'.liveBytes = a.liveBytes - b.2.size := by
  have hmem : b ∈ cs := by simp [ha.blocks]
  obtain ⟨h', hrun, hbec, hepilog, -⟩ := hs.release ha hb
  obtain ⟨done, hfreed, hrun⟩ : ∃ done, done.freed = b.2.size ∧
      a.heap.release b.1 = .ok (done, h') := ⟨_, rfl, hrun⟩
  refine ⟨({ a with heap := h' }.discountBlock done.freed).note (.freed "free" b.1 done),
    settle_ok ?_ hbec.sound, hbec, hepilog, rfl, hfreed ▸ rfl⟩
  unfold free
  rw [accept_allocated hs hmem hb, ok_bind]
  show (a.heap.release b.1 >>= fun r => _) = _
  rw [hrun]
  rfl

/-- Live allocations can be released in any order. -/
theorem Reachable.releaseAll (h : Reachable settings a live) (ht : a.Tracks live cs ls)
    (hnodup : ps.Nodup) (hlive : ∀ p ∈ ps, p ∈ live) :
    ∃ a' live', a.releaseAll ps = .ok (.ok (), a') ∧ Reachable settings a' live' ∧
      a.heap.Vacates cs ps a'.heap := by
  induction ps generalizing a live cs ls with
  | nil => exact ⟨a, live, rfl, h, .refl ht.sound⟩
  | cons p ps ih =>
    obtain ⟨b, hb, ha, rfl⟩ := (ht.live p).mp (hlive p List.mem_cons_self)
    obtain ⟨hnot, hnodup⟩ := List.nodup_cons.mp hnodup
    obtain ⟨pre, prev, next, post, hr⟩ := exists_around ht.sound.shape.separated hb
    obtain ⟨a₁, hrun, hbec, hepilog, -⟩ := release_merges ht.sound hr ha
    have h₁ := h.released (hlive b.1 List.mem_cons_self) hrun
    obtain ⟨cs₁, ls₁, ht₁, -⟩ := h₁.tracks
    obtain rfl := ht₁.sound.chain.unique hbec.sound.chain
    have hstill : ∀ p ∈ ps, p ∈ Request.live live (.release b.1) none := by
      intro p hp
      have hne : p ≠ b.1 := fun he => hnot (he ▸ hp)
      simpa [Request.live, Request.pointer, hne] using hlive p (List.mem_cons_of_mem _ hp)
    obtain ⟨a', live', hrest, h', hv⟩ := ih h₁ ht₁ hnodup hstill
    refine ⟨a', live', ?_, h', hv.cons ht.sound hr hbec hepilog⟩
    show (a.release b.1 >>= fun r => _) = _
    rw [hrun]
    exact hrest

/-! ## Orders -/

/-- In whatever order live allocations are released, all of these releases are granted, and the
layout is what it was with their blocks marked free and runs of free blocks merged: if nothing
else was live, one free block at most.  Sizes, counters and the sets of listed blocks are the
same, and so is every byte that is not of a link and not a leftover. -/
theorem Reachable.release_order (h : Reachable settings a live) (hperm : ps.Perm qs)
    (hnodup : ps.Nodup) (hlive : ∀ p ∈ ps, p ∈ live) :
    ∃ a₁ a₂ bs bs₁ bs₂,
      a.releaseAll ps = .ok (.ok (), a₁) ∧ a.releaseAll qs = .ok (.ok (), a₂) ∧
      a.blocks = .ok bs ∧ a₁.blocks = .ok bs₁ ∧ a₂.blocks = .ok bs₂ ∧
      bs₁.map Block.tagged = coalesce (freed ps (bs.map Block.tagged)) ∧
      bs₂.map Block.tagged = bs₁.map Block.tagged ∧
      a₁.heap.size = a₂.heap.size ∧ a₁.heap.epilog = a₂.heap.epilog ∧
      a₁.liveBlocks = a₂.liveBlocks ∧ a₁.liveBytes = a₂.liveBytes ∧
      (∀ k < Bucket.count, ∃ ns ms,
        a₁.heap.nodes k = .ok ns ∧ a₂.heap.nodes k = .ok ms ∧ ns.Perm ms) ∧
      (∀ j, a₁.heap.mem.byte j = a₂.heap.mem.byte j ∨
        (∃ i, a₁.heap.LinkWord bs₁ i ∧ InWord i j) ∨ Leftover bs bs₁ j) ∧
      ((∀ p ∈ live, p ∈ ps) → bs₁ = [] ∨
        ∃ b, bs₁ = [b] ∧ b.isFree ∧ b.offset = firstBlock ∧
          b.offset + b.size = a₁.heap.epilog + wordSize) := by
  obtain ⟨cs, ls, ht, he⟩ := h.tracks
  have hs := ht.sound
  obtain ⟨a₁, live₁, hrun₁, h₁, hv₁⟩ := h.releaseAll ht hnodup hlive
  obtain ⟨a₂, live₂, hrun₂, h₂, hv₂⟩ := h.releaseAll ht (hperm.nodup_iff.mp hnodup)
    fun p hp => hlive p (hperm.mem_iff.mpr hp)
  have hv₂ := hv₂.perm hperm
  obtain ⟨cs₁, ls₁, ⟨hs₁, -⟩, -, hc₁⟩ := h₁.audited
  obtain ⟨cs₂, ls₂, ⟨hs₂, -⟩, -, hc₂⟩ := h₂.audited
  obtain ⟨_, hsound₁⟩ := hv₁.sound
  obtain ⟨_, hsound₂⟩ := hv₂.sound
  obtain rfl := hs₁.chain.unique hsound₁.chain
  obtain rfl := hs₂.chain.unique hsound₂.chain
  obtain ⟨hepilog, hsize⟩ := hs₁.extent_eq hs₂
  refine ⟨a₁, a₂, _, _, _, hrun₁, hrun₂, hs.consistent.blocks, hs₁.consistent.blocks,
    hs₂.consistent.blocks, ?_, ?_, hsize, hepilog, hc₁.blocks.trans hc₂.blocks.symm,
    hc₁.bytes.trans hc₂.bytes.symm, fun k hk => ?_, hv₁.byte_eq_or hs he hv₂, fun hall => ?_⟩
  · rw [map_tagged_views, map_tagged_views]
  · rw [map_tagged_views, map_tagged_views]
  · exact ⟨_, _, hs₁.consistent.nodes hk, hs₂.consistent.nodes hk,
      (hs₁.list_perm hk).trans (hs₂.list_perm hk).symm⟩
  · have hps : ∀ b ∈ cs, b.2.status = .allocated → b.1 ∈ ps :=
      fun b hb ha => hall b.1 ((ht.live b.1).mpr ⟨b, hb, ha, rfl⟩)
    rcases hv₁.whole hps with hcs | ⟨n, hcs, hend⟩
    · exact .inl (by rw [hcs]; rfl)
    · exact .inr ⟨viewOf a₁.heap.mem (firstBlock, ⟨n, .free⟩), by rw [hcs]; rfl, rfl, rfl, hend⟩

/-! ## Three blocks in a row -/

/-- Makes room for 48 bytes and allocates three blocks of 16 bytes in it. -/
def row : List Request :=
  [.allocate 40, .release 112, .allocate 8, .allocate 8, .allocate 8]

/-- The three blocks released from the first to the last, and the other way round.  Either way
one block of 48 bytes is left, but the word that was the header of the second one differs: in the
first order this block was taken in when its own size was in the word, in the second when it had
itself taken in the third one. -/
theorem session_row :
    ∃ a a₁ a₂, session {} row = some (a, [144, 128, 112]) ∧
      a.releaseAll [112, 128, 144] = .ok (.ok (), a₁) ∧
      a.releaseAll [144, 128, 112] = .ok (.ok (), a₂) ∧
      a₁.blocks = .ok [⟨112, 48, .free, some (8, 168)⟩] ∧ a₁.heap.epilog = 156 ∧
      a₁.heap.mem.byte 124 = 16 ∧ a₂.heap.mem.byte 124 = 32 := by
  have hall : (session {} row).map (fun s => decide (s.2 = [144, 128, 112] ∧
      (s.1.releaseAll [112, 128, 144]).toOption.map (fun r => decide (r.1 = .ok () ∧
        r.2.blocks = .ok [⟨112, 48, .free, some (8, 168)⟩] ∧ r.2.heap.epilog = 156 ∧
        r.2.heap.mem.byte 124 = 16)) = some true ∧
      (s.1.releaseAll [144, 128, 112]).toOption.map (fun r => decide (r.1 = .ok () ∧
        r.2.heap.mem.byte 124 = 32)) = some true)) = some true := by
    decide +kernel
  obtain ⟨⟨a, live⟩, hrun, hall⟩ := Option.map_eq_some_iff.mp hall
  obtain ⟨rfl, hfirst, hlast⟩ := of_decide_eq_true hall
  obtain ⟨⟨_, a₁⟩, hrun₁, hfirst⟩ := Option.map_eq_some_iff.mp hfirst
  obtain ⟨⟨_, a₂⟩, hrun₂, hlast⟩ := Option.map_eq_some_iff.mp hlast
  obtain ⟨rfl, hblocks, hepilog, hbyte₁⟩ := of_decide_eq_true hfirst
  obtain ⟨rfl, hbyte₂⟩ := of_decide_eq_true hlast
  exact ⟨a, a₁, a₂, hrun, eq_ok_of_toOption hrun₁, eq_ok_of_toOption hrun₂, hblocks, hepilog,
    hbyte₁, hbyte₂⟩

theorem release_order_row :
    ∃ a a₁ a₂, session {} row = some (a, [144, 128, 112]) ∧
      a.releaseAll [112, 128, 144] = .ok (.ok (), a₁) ∧
      a.releaseAll [144, 128, 112] = .ok (.ok (), a₂) ∧
      a₁.liveBytes = a₂.liveBytes ∧
      ∃ b, a₁.blocks = .ok [b] ∧ b.isFree ∧ b.offset = firstBlock ∧
        b.offset + b.size = a₁.heap.epilog + wordSize := by
  obtain ⟨a, a₁, a₂, hrun, hrun₁, hrun₂, hblocks, -⟩ := session_row
  obtain ⟨_, _, bs, bs₁, bs₂, hrun₁', hrun₂', -, hbs₁, -, -, -, -, -, -, hbytes, -, -, hwhole⟩ :=
    Reachable.release_order (.of_session hrun) (List.reverse_perm [144, 128, 112]) (by decide)
      (by decide)
  cases hrun₁.symm.trans hrun₁'
  cases hrun₂.symm.trans hrun₂'
  refine ⟨a, a₁, a₂, hrun, hrun₁, hrun₂, hbytes, ?_⟩
  rcases hwhole (by decide) with rfl | ⟨b, rfl, hb⟩
  · cases hblocks.symm.trans hbs₁
  · exact ⟨b, hbs₁, hb⟩

/-- The order can be seen in the store, also outside of links. -/
theorem not_release_order_bytes :
    ¬ ∀ (settings : Settings) (a a₁ a₂ : Allocator) (live ps qs : List Nat) (bs : List Block),
      Reachable settings a live → ps.Perm qs → ps.Nodup → (∀ p ∈ ps, p ∈ live) →
      a.releaseAll ps = .ok (.ok (), a₁) → a.releaseAll qs = .ok (.ok (), a₂) →
      a₁.blocks = .ok bs → ∀ j, (∀ i, a₁.heap.LinkWord bs i → ¬ InWord i j) →
      a₁.heap.mem.byte j = a₂.heap.mem.byte j := by
  intro hall
  obtain ⟨a, a₁, a₂, hrun, hrun₁, hrun₂, hblocks, hepilog, hbyte₁, hbyte₂⟩ := session_row
  have heq := hall {} a a₁ a₂ _ _ _ _ (.of_session hrun) (List.reverse_perm [144, 128, 112])
    (by decide) (by decide) hrun₁ hrun₂ hblocks 124 fun i hi => ?_
  · rw [hbyte₁, hbyte₂] at heq
    cases heq
  · -- Byte 124 is neither near a sentinel nor in the first two words of the block.
    rintro ⟨hle, hlt⟩
    rcases hi with ⟨k, hk, hi⟩ | ⟨b, hb, -, hi⟩
    · simp only [epilogNode, hepilog, prologNode, nodeSize, wordSize, Bucket.count] at *
      omega
    · obtain rfl := List.mem_singleton.mp hb
      simp only [wordSize] at *
      omega

end Allocator

end SegFit
