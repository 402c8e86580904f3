/-
  What was carved grows together again.  An allocation and what is left of its region behind it
  fill the region (`carved`), and nothing else beside them is free.  So a release merges just
  these two, and a block that was made smaller has all of its old room.

  Proved:
  * `Reachable.release_undoes_allocate`: an allocation in a free block, and its release.  Only the
    order of one list can differ: the free block comes first on it.
  * `Reachable.regrow_undoes_shrink`: fewer bytes for an allocation, and then again as many as it
    had.  It stays where it is with the bytes it was left, and the heap neither grows nor refuses.
-/
import SegFit.Proofs.Cells
import SegFit.Proofs.Undoing

namespace SegFit

/-- A request that fits in a block of a size needs no larger one. -/
theorem exists_blockSizeFor {n size : Nat} (hb : BlockSize size) (hle : n + overhead ≤ size) :
    ∃ s, blockSizeFor n = some s ∧ s ≤ size := by
  obtain ⟨hlarge, haligned, hsmall⟩ := hb
  unfold blockSizeFor alignUp
  simp only [alignment, overhead, minBlock, maxBlock, offsetBound] at *
  rw [if_pos (by omega), Option.bind_some, if_pos (by omega)]
  exact ⟨_, rfl, by omega⟩

/-- A request for all that a block can hold needs a block of just its size. -/
theorem blockSizeFor_full {size : Nat} (hb : BlockSize size) :
    blockSizeFor (size - overhead) = some size := by
  have hroom : size - overhead + overhead = size :=
    Nat.sub_add_cancel (Nat.le_trans (by decide) hb.large)
  obtain ⟨s, hs, hle⟩ := exists_blockSizeFor hb (Nat.le_of_eq hroom)
  obtain ⟨-, hge⟩ := blockSizeFor_spec hs
  rw [hs, Nat.le_antisymm hle (hroom ▸ hge)]

namespace Heap

variable {h h' : Heap} {cs pre post : List TaggedBlock} {next : Option TaggedBlock}
  {ls : Nat → List Nat} {b : TaggedBlock} {block total size : Nat}

/-! ## Regions -/

theorem remainder_free : ∀ c ∈ remainder block total size, c.2.isFree := by
  unfold remainder
  split
  · rintro _ ⟨⟩
    rfl
  · simp

/-- The remainder begins where the allocation ends, and has the bytes that this leaves. -/
theorem size_remainder (block : Nat) (hle : size ≤ total) :
    placed total size + ((remainder block total size).map fun c => c.2.size).getD 0 = total := by
  unfold placed remainder
  split
  · exact Nat.add_sub_cancel' hle
  · rfl

/-- A region whose allocation is given back is one free block again. -/
theorem merged_carved (hle : size ≤ total) :
    merged none (block, ⟨placed total size, .allocated⟩) (remainder block total size) =
      (block, ⟨total, .free⟩) := by
  have hsize := size_remainder block hle
  simp only [merged, Option.map_none, Option.getD_none, Nat.zero_add, hsize]

/-- The room of the allocation is all of the region. -/
theorem roomSize_carved (hle : size ≤ total) :
    roomSize (block, ⟨placed total size, .allocated⟩) (remainder block total size) = total :=
  size_remainder block hle

theorem before_carved (hafter : ∀ c ∈ post.head?, ¬ c.2.isFree) :
    Before (pre ++ carved block total size ++ post) pre (block, ⟨placed total size, .allocated⟩)
      (remainder block total size) post :=
  ⟨by simp [carved], remainder_free, hafter⟩

theorem around_carved (hbefore : ∀ c ∈ pre.getLast?, ¬ c.2.isFree)
    (hafter : ∀ c ∈ post.head?, ¬ c.2.isFree) :
    Around (pre ++ carved block total size ++ post) pre none
      (block, ⟨placed total size, .allocated⟩) (remainder block total size) post :=
  ⟨rfl, by simp, remainder_free, hbefore, hafter⟩

/-- The size that a block has, carved out of its room, gives the block and its free successor. -/
theorem Before.carved_eq (hn : Before cs pre b next post) (hc : h.Chain firstBlock cs)
    (ha : b.2.status = .allocated) : carved b.1 (roomSize b next) b.2.size = b :: next.toList := by
  obtain ⟨block, size, status⟩ := b
  obtain rfl : status = .allocated := ha
  obtain ⟨-, ⟨-, -, hnext⟩, -⟩ := hn.tiles hc
  cases next with
  | none =>
    refine carved_of_no_remainder ?_
    simp [roomSize]
  | some c =>
    obtain ⟨start, len, status⟩ := c
    obtain ⟨rfl, hlarge, -⟩ := hnext
    obtain rfl : status = .free := Tag.isFree_iff.mp (hn.free _ rfl)
    have hlarge : minBlock ≤ len := hlarge
    have hrest : size + len - size = len := Nat.add_sub_cancel_left ..
    show carved block (size + len) size = [_, (block + size, ⟨len, .free⟩)]
    rw [carved_of_remainder (hrest.symm ▸ hlarge), hrest]

theorem Chain.blockSize_of_mem (hc : h.Chain firstBlock cs) (hb : b ∈ cs) :
    BlockSize b.2.size :=
  have henc := (hc.marked hb).encodable
  ⟨(hc.bounds hb).2.2, henc.1, henc.2⟩

/-! ## An allocation in a free block -/

/-- A block is on no list but that of its bucket. -/
theorem Sound.not_mem_list (hs : h.Sound cs ls) (hb : b ∈ cs) {k : Nat} (hk : k < Bucket.count)
    (hne : k ≠ Bucket.ofSize b.2.size) : b.1 ∉ ls k := by
  intro hx
  obtain ⟨tag, hmem, -, hof⟩ := (hs.shape.mem_list hk).mp hx
  obtain rfl := congrArg Prod.snd (hs.chain.tiles.eq_of_offset hmem hb rfl)
  exact hne hof.symm

/-- The remainder of a free block is on no list. -/
theorem Sound.remainder_not_mem (hs : h.Sound cs ls) (hb : (block, ⟨total, .free⟩) ∈ cs)
    (hlarge : minBlock ≤ size) :
    ∀ x ∈ (remainder block total size).map Prod.fst, ∀ k < Bucket.count, x ∉ ls k := by
  intro x hx k hk hlisted
  unfold remainder at hx
  split at hx
  · obtain rfl := Option.some.inj hx
    obtain ⟨tag, hmem, -⟩ := (hs.shape.mem_list hk).mp hlisted
    have hapart := (hs.chain.tiles.eq_or_apart hb hmem).resolve_left fun he => by
      have hoffset := congrArg Prod.fst he
      simp only [minBlock] at *
      omega
    simp only [minBlock] at *
    omega
  · cases hx

/-- The lists after the allocation carved out of the free block `block` was given back: this block
comes first on its list, and all is otherwise as it was. -/
theorem Sound.releasedLists_carved (hs : h.Sound cs ls) (hb : (block, ⟨total, .free⟩) ∈ cs)
    (hlarge : minBlock ≤ size) (hle : size ≤ total) {k : Nat} (hk : k < Bucket.count) :
    releasedLists (pushAny (dropNode ls block) (remainder block total size)) none
        (block, ⟨placed total size, .allocated⟩) (remainder block total size) k =
      if k = Bucket.ofSize total then block :: (ls k).erase block else ls k := by
  have hdrop : dropAny (pushAny (dropNode ls block) (remainder block total size))
      ((remainder block total size).map Prod.fst) k = (ls k).erase block := by
    have hnot := hs.remainder_not_mem hb hlarge
    cases hr : remainder block total size with
    | none => rfl
    | some c =>
      rw [hr] at hnot
      exact dropNode_pushNode (fun j hj hx => hnot c.1 rfl j hj (mem_of_mem_dropNode hx)) hk
  have hnone (l : Nat → List Nat) : dropAny l none = l := rfl
  rw [releasedLists, merged_carved hle, Option.map_none, hnone, pushNode, hdrop]
  split
  · rfl
  · exact List.erase_of_not_mem (hs.not_mem_list hb hk ‹_›)

/-- If the heap keeps its size, a block is granted by carving it out of a free one. -/
theorem Sound.acquire_kept (hs : h.Sound cs ls) {limit : Nat} (hb : BlockSize size) {grant : Grant}
    (hrun : h.acquire limit size = .ok (.ok grant, h')) (hsize : h'.size = h.size) :
    ∃ pre found post, cs = pre ++ (grant.block, ⟨found, .free⟩) :: post ∧ size ≤ found ∧
      h.Becomes cs h' (pre ++ carved grant.block found size ++ post)
        (pushAny (dropNode ls grant.block) (remainder grant.block found size)) ∧
      h'.epilog = h.epilog := by
  cases hx : fit cs ls size with
  | some x =>
    obtain ⟨⟨found, status⟩, hm, hf, -, hle⟩ := hs.consistent.listed.fit hs.chain.tiles hx
    obtain rfl : status = .free := Tag.isFree_iff.mp hf
    obtain ⟨pre, post, hcs⟩ := List.append_of_mem hm
    obtain ⟨_, hrun', hbec, hepilog⟩ := hs.acquire_reused limit hb hx hcs
    obtain ⟨hgrant, rfl⟩ := Prod.mk.inj (Except.ok.inj (hrun.symm.trans hrun'))
    obtain rfl := Except.ok.inj hgrant
    exact ⟨pre, found, post, hcs, hle, hbec, hepilog⟩
  | none =>
    -- Otherwise the heap would have grown.
    obtain ⟨pre, last, he⟩ := exists_endsIn hs.shape.separated
    have hsmall : ∀ b ∈ cs, b.2.isFree → b.2.size < size := fun b hm hf =>
      hs.complete.fit_eq_none hs.chain.tiles hx hm hf
    have hpos := (he.growthFor_spec hs.chain hb hsmall).1
    rcases hs.acquire_at_end hb limit he hsmall with ⟨-, _, _, hrun', -, hgrown⟩ | ⟨-, _, hrun'⟩
    · obtain ⟨-, rfl⟩ := Prod.mk.inj (Except.ok.inj (hrun.symm.trans hrun'))
      omega
    · cases hrun.symm.trans hrun'

end Heap

namespace Allocator

open Heap

variable {a a₁ : Allocator} {cs pre post : List TaggedBlock} {next : Option TaggedBlock}
  {ls : Nat → List Nat} {b : TaggedBlock} {settings : Settings} {live : List Nat} {n p : Nat}

/-- In every state that clients can reach, an allocation for which the heap did not grow, and its
release, leave the blocks, the size of the heap and the counters as they were, and the same blocks
on each list.  The block that served it comes first on its list; all lists are otherwise in their
old order. -/
theorem Reachable.release_undoes_allocate (h : Reachable settings a live)
    (halloc : a.allocate n = .ok (.ok (some p), a₁)) (hsize : a₁.heap.size = a.heap.size) :
    ∃ cs found a₂, a.Shows cs ∧ (p, ⟨found, .free⟩) ∈ cs ∧ a₁.release p = .ok (.ok (), a₂) ∧
      a₂.Shows cs ∧
      (∀ k < Bucket.count, ∃ ns ns', a.heap.nodes k = .ok ns ∧ a₂.heap.nodes k = .ok ns' ∧
        ns'.Perm ns ∧ ns' = if k = Bucket.ofSize found then p :: ns.erase p else ns) ∧
      a₂.heap.size = a.heap.size ∧ a₂.liveBlocks = a.liveBlocks ∧ a₂.liveBytes = a.liveBytes := by
  obtain ⟨cs, ls, ht, -, hc⟩ := h.audited
  have hs := ht.sound
  have hn : n ≠ 0 := by
    rintro rfl
    cases allocate_zero halloc
  obtain ⟨size, _, hblock, hacquire, hanswer⟩ := serve_granted hn (settle_eq_ok halloc)
  obtain rfl := Option.some.inj hanswer
  obtain ⟨grant, hgrant, rfl, -⟩ := acquire_granted hacquire
  obtain ⟨hb, -⟩ := blockSizeFor_spec hblock
  obtain ⟨pre, found, post, rfl, hle, hbec₁, hepilog₁⟩ := hs.acquire_kept hb hgrant hsize
  have hmem : (grant.block, ⟨found, .free⟩) ∈ pre ++ (grant.block, ⟨found, .free⟩) :: post := by
    simp
  have hbefore := hs.shape.separated.before_free rfl
  have hafter := (separated_append.mp hs.shape.separated).2.1.after_free rfl
  -- The release merges the allocation with the remainder only.
  obtain ⟨a₂, hrelease, hbec₂, hepilog₂, -⟩ :=
    release_merges hbec₁.sound (around_carved hbefore hafter) rfl
  rw [merged_carved hle] at hbec₂
  have hs₂ : a₂.heap.Sound (pre ++ (grant.block, ⟨found, .free⟩) :: post) _ :=
    (List.append_assoc pre [_] post ▸ hbec₂.sound :)
  have hlive : grant.block ∈ Request.live live (.allocate n) (some grant.block) :=
    List.mem_cons_self
  have hc₂ := ((h.allocated halloc).released hlive hrelease).tally_of_shows (shows_of_sound hs₂)
  refine ⟨_, found, a₂, shows_of_sound hs, hmem, hrelease, shows_of_sound hs₂, fun k hk => ?_,
    hs.size_eq (n := 0) hs₂ (hepilog₂.trans hepilog₁), hc₂.blocks.trans hc.blocks.symm,
    hc₂.bytes.trans hc.bytes.symm⟩
  refine ⟨ls k, _, hs.consistent.nodes hk, hs₂.consistent.nodes hk,
    (hs₂.list_perm hk).trans (hs.list_perm hk).symm, hs.releasedLists_carved hmem hb.large hle hk⟩

/-- A block of 32 bytes is split for an allocation, and is whole again after its release. -/
theorem release_undoes_allocate_split :
    ∃ a a₁ a₂, session {} [.allocate 40, .resize (some 112) 8] = some (a, [112]) ∧
      a.Shows [(112, ⟨16, .allocated⟩), (128, ⟨32, .free⟩)] ∧
      a.allocate 8 = .ok (.ok (some 128), a₁) ∧ a₁.heap.size = a.heap.size ∧
      a₁.release 128 = .ok (.ok (), a₂) ∧
      a₂.Shows [(112, ⟨16, .allocated⟩), (128, ⟨32, .free⟩)] ∧ a₂.heap.nodes 1 = .ok [128] ∧
      a₂.liveBytes = a.liveBytes := by
  obtain ⟨a, hrun, hshows, hnodes, -, -⟩ := exists_shrunk
  obtain ⟨cs, ls, ht, -⟩ := Reachable.tracks (.of_session hrun)
  obtain rfl := (shows_of_sound ht.sound).unique hshows
  obtain ⟨result, a₁, hserve, -, hdecides⟩ := serve_decides ht.sound (n := 8) (by decide)
    (show blockSizeFor 8 = some 16 by decide) "malloc"
  obtain ⟨⟨p, rfl⟩, hsize⟩ :=
    hdecides.reused ⟨viewOf a.heap.mem (128, ⟨32, .free⟩), by simp, rfl, (by decide : 16 ≤ 32)⟩
  have halloc := allocate_of_serve ht.sound hserve
  obtain ⟨cs, found, a₂, hcs, hmem, hrelease, hshows₂, hlists, -, -, hbytes⟩ :=
    Reachable.release_undoes_allocate (.of_session hrun) halloc hsize
  obtain rfl := hcs.unique hshows
  obtain ⟨rfl, rfl⟩ : p = 128 ∧ found = 32 := by simpa using hmem
  obtain ⟨ns, ns', hns, hns', -, rfl⟩ := hlists 1 (by decide)
  obtain rfl := Except.ok.inj (hns.symm.trans hnodes)
  exact ⟨a, a₁, a₂, hrun, hshows, halloc, hsize, hrelease, hshows₂, hns', hbytes⟩

/-! ## Fewer bytes and as many again -/

/-- The first bytes of a payload, as clients read them. -/
theorem readPayload_front (hs : a.heap.Sound cs ls) (hb : b ∈ cs) (ha : b.2.status = .allocated)
    {m : Nat} (hm : m + overhead ≤ b.2.size) :
    a.readPayload b.1 0 (some m) = .ok (.ok (a.heap.mem.slice b.1 m)) := by
  rw [readPayload_allocated hs hb ha]
  exact if_pos (by simp only [Option.getD_some]; omega)

/-- The first bytes of an allocation that has stayed where it was are read as before, if both
blocks hold them. -/
theorem readPayload_kept {a' : Allocator} {cs' : List TaggedBlock} {ls' : Nat → List Nat}
    {size size' m : Nat} (hs : a.heap.Sound cs ls) (hbec : a.heap.Becomes cs a'.heap cs' ls')
    (hb : (p, ⟨size, .allocated⟩) ∈ cs) (hb' : (p, ⟨size', .allocated⟩) ∈ cs')
    (hm : m + overhead ≤ size) (hm' : m + overhead ≤ size') :
    a'.readPayload p 0 (some m) = a.readPayload p 0 (some m) := by
  have hin : p + (size - overhead) ≤ a.heap.mem.size := hs.consistent.payload_le hb
  have hin' : p + (size' - overhead) ≤ a'.heap.mem.size := hbec.sound.consistent.payload_le hb'
  have hkept : a'.heap.mem.slice p m = a.heap.mem.slice p m := by
    refine Memory.slice_congr (by omega) (by omega) fun k hk => ?_
    exact hbec.payload hs.chain hb rfl hb' rfl ⟨Nat.le_add_right .., by simp only; omega⟩
      ⟨Nat.le_add_right .., by simp only; omega⟩
  have hread := readPayload_front hs hb rfl hm
  have hread' := readPayload_front hbec.sound hb' rfl hm'
  rw [hkept] at hread'
  exact hread'.trans hread.symm

/-- An allocation that is made smaller, and then as large as it was, stays in its room, and takes
as much of it in the end as before. -/
theorem shrink_regrow (hs : a.heap.Sound cs ls) {size small m : Nat}
    (hn : Before cs pre (p, ⟨size, .allocated⟩) next post) (hm : m ≠ 0)
    (hsmall : blockSizeFor m = some small) (hle : small ≤ size) :
    ∃ a₁ ls₁ a₂ ls₂ total, small ≤ total ∧
      a.resize (some p) m = .ok (.ok (some p), a₁) ∧
      a.heap.Becomes cs a₁.heap (pre ++ carved p total small ++ post) ls₁ ∧
      a₁.heap.epilog = a.heap.epilog ∧
      a₁.resize (some p) (size - overhead) = .ok (.ok (some p), a₂) ∧
      a₁.heap.Becomes (pre ++ carved p total small ++ post) a₂.heap cs ls₂ ∧
      a₂.heap.epilog = a₁.heap.epilog := by
  have hb : (p, ⟨size, .allocated⟩) ∈ cs := by simp [hn.blocks]
  have hblock : BlockSize size := hs.chain.blockSize_of_mem hb
  have hroom : size ≤ roomSize (p, ⟨size, .allocated⟩) next := Nat.le_add_right ..
  have hle₁ := Nat.le_trans hle hroom
  obtain ⟨a₁, ls₁, hrun₁, hbec₁, hepilog₁⟩ := resize_inPlace hs hn rfl hm hsmall hle₁
  have hu : size - overhead ≠ 0 := by
    have hlarge := hblock.large
    simp only [overhead, minBlock] at *
    omega
  obtain ⟨a₂, ls₂, hrun₂, hbec₂, hepilog₂⟩ :=
    resize_inPlace hbec₁.sound (before_carved hn.after) rfl hu (blockSizeFor_full hblock)
      (Nat.le_trans hroom (Nat.le_of_eq (roomSize_carved hle₁).symm))
  have hcs : pre ++ ((p, ⟨size, .allocated⟩) :: next.toList) ++ post = cs := by
    simp [hn.blocks]
  rw [roomSize_carved hle₁, hn.carved_eq hs.chain rfl, hcs] at hbec₂
  exact ⟨a₁, ls₁, a₂, ls₂, _, hle₁, hrun₁, hbec₁, hepilog₁, hrun₂, hbec₂, hepilog₂⟩

/-- In every state that clients can reach, a live allocation can be given up to as many bytes as it
has, and then all of them again.  Neither change moves it, makes the heap grow or is refused, and
the bytes that it keeps are kept by both; in the end the blocks and the counters are as they
were. -/
theorem Reachable.regrow_undoes_shrink (h : Reachable settings a live) (hp : p ∈ live) :
    ∃ cs u, a.Shows cs ∧ a.usable p = .ok (.ok u) ∧ ∀ m, 0 < m → m ≤ u →
      ∃ a₁ a₂ data, a.resize (some p) m = .ok (.ok (some p), a₁) ∧
        a₁.resize (some p) u = .ok (.ok (some p), a₂) ∧
        a₁.heap.size = a.heap.size ∧ a₂.heap.size = a.heap.size ∧
        data.size = m ∧ a.readPayload p 0 (some m) = .ok (.ok data) ∧
        a₁.readPayload p 0 (some m) = .ok (.ok data) ∧
        a₂.readPayload p 0 (some m) = .ok (.ok data) ∧
        a₂.Shows cs ∧ a₂.liveBlocks = a.liveBlocks ∧ a₂.liveBytes = a.liveBytes := by
  obtain ⟨cs, ls, ht, -, hc⟩ := h.audited
  have hs := ht.sound
  obtain ⟨⟨p, size, status⟩, hb, rfl, rfl⟩ := (ht.live p).mp hp
  obtain ⟨pre, prev, next, post, har⟩ := exists_around hs.shape.separated hb
  have hblock : BlockSize size := hs.chain.blockSize_of_mem hb
  refine ⟨cs, size - overhead, shows_of_sound hs, usable_allocated hs hb rfl, fun m hm hle => ?_⟩
  have hfits : m + overhead ≤ size := by
    have hlarge := hblock.large
    simp only [overhead, minBlock] at *
    omega
  obtain ⟨small, hsmall, hsmaller⟩ := exists_blockSizeFor hblock hfits
  obtain ⟨a₁, ls₁, a₂, ls₂, total, hle₁, hrun₁, hbec₁, hepilog₁, hrun₂, hbec₂, hepilog₂⟩ :=
    shrink_regrow hs har.before_next (Nat.ne_of_gt hm) hsmall hsmaller
  have hs₁ := hbec₁.sound
  have hs₂ := hbec₂.sound
  have hlive₁ : p ∈ Request.live live (.resize (some p) m) (some p) := List.mem_cons_self
  have hc₂ := ((h.resized hp hrun₁).resized hlive₁ hrun₂).tally_of_shows (shows_of_sound hs₂)
  -- The smaller block holds the bytes as well.
  have hb₁ : (p, ⟨placed total small, .allocated⟩) ∈
      pre ++ prev.toList ++ carved p total small ++ post := by
    simp [carved]
  have hfits₁ := Nat.le_trans (blockSizeFor_spec hsmall).2 (le_placed hle₁)
  have hread := readPayload_front hs hb rfl hfits
  have hread₁ := readPayload_kept hs hbec₁ hb hb₁ hfits hfits₁
  have hread₂ := readPayload_kept hs₁ hbec₂ hb₁ hb hfits₁ hfits
  have hin : p + (size - overhead) ≤ a.heap.mem.size := hs.consistent.payload_le hb
  exact ⟨a₁, a₂, a.heap.mem.slice p m, hrun₁, hrun₂, hs.size_eq (n := 0) hs₁ hepilog₁,
    hs.size_eq (n := 0) hs₂ (hepilog₂.trans hepilog₁), Memory.size_slice (by omega), hread,
    hread₁.trans hread, (hread₂.trans hread₁).trans hread, shows_of_sound hs₂,
    hc₂.blocks.trans hc.blocks.symm, hc₂.bytes.trans hc.bytes.symm⟩

/-- Of 40 bytes all but 8 are given up and taken back. -/
theorem regrow_undoes_shrink_split :
    ∃ a a₁ a₂, session {} [.allocate 40] = some (a, [112]) ∧ a.usable 112 = .ok (.ok 40) ∧
      a.resize (some 112) 8 = .ok (.ok (some 112), a₁) ∧
      a₁.resize (some 112) 40 = .ok (.ok (some 112), a₂) ∧
      a₁.heap.size = a.heap.size ∧ a₂.heap.size = a.heap.size ∧
      a₂.Shows [(112, ⟨48, .allocated⟩)] ∧ a₂.liveBytes = a.liveBytes := by
  have hall : (session {} [.allocate 40]).map (fun s =>
      decide (s.2 = [112] ∧ s.1.Shows [(112, ⟨48, .allocated⟩)])) = some true := by
    decide +kernel
  obtain ⟨⟨a, live⟩, hrun, hfacts⟩ := Option.map_eq_some_iff.mp hall
  obtain ⟨rfl, hshows⟩ := of_decide_eq_true hfacts
  obtain ⟨cs, ls, ht, -⟩ := Reachable.tracks (.of_session hrun)
  obtain rfl := (shows_of_sound ht.sound).unique hshows
  have husable : a.usable 112 = .ok (.ok 40) :=
    usable_allocated ht.sound (b := (112, ⟨48, .allocated⟩)) (by simp) rfl
  obtain ⟨cs, u, hcs, hu, hsizes⟩ :=
    Reachable.regrow_undoes_shrink (p := 112) (.of_session hrun) (by decide)
  obtain rfl := hcs.unique hshows
  obtain rfl := Except.ok.inj (Except.ok.inj (hu.symm.trans husable))
  obtain ⟨a₁, a₂, -, hrun₁, hrun₂, hsize₁, hsize₂, -, -, -, -, hshows₂, -, hbytes⟩ :=
    hsizes 8 (by decide) (by decide)
  exact ⟨a, a₁, a₂, hrun, husable, hrun₁, hrun₂, hsize₁, hsize₂, hshows₂, hbytes⟩

end Allocator

end SegFit
