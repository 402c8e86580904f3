/-
  What a request for bytes comes to.  One that no tag can describe is refused as too large.  Any
  other is met by a free block if one is large enough, and the heap keeps its size; if none is, by
  growth of exactly what the last block lacks, as far as the limits allow, and otherwise memory is
  out (`Reachable.allocate_decided`).
-/
import SegFit.Proofs.Placement
import SegFit.Proofs.ReleaseOrder

namespace SegFit

/-- The free block at the end of `bs`, if there is one. -/
def freeTail (bs : List Block) : Option Block :=
  bs.getLast?.filter Block.isFree

/-- The bytes that the free block at the end of `bs` lacks for `size` bytes, all of them if there
is no such block. -/
def shortfall (bs : List Block) (size : Nat) : Nat :=
  size - ((freeTail bs).map Block.size).getD 0

/-- Only requests that leave no room for two tags are too large. -/
theorem blockSizeFor_eq_none_iff {n : Nat} : blockSizeFor n = none ↔ maxBlock - overhead < n := by
  unfold blockSizeFor alignUp
  split
  · simp only [Option.bind_some]
    split
    · simp only [reduceCtorEq, false_iff]
      simp only [alignment, overhead, maxBlock] at *
      omega
    · simp only [true_iff]
      simp only [alignment, overhead, maxBlock] at *
      omega
  · simp only [Option.bind_none, true_iff]
    simp only [alignment, overhead, maxBlock, offsetBound] at *
    omega

namespace Heap

variable {h : Heap} {cs pre : List TaggedBlock} {last : Option TaggedBlock} {ls : Nat → List Nat}
  {size : Nat}

/-! ## The end of the heap -/

/-- What is missing is the size asked for, less that of the free last block. -/
theorem EndsIn.growthFor_eq (he : EndsIn cs pre last) (hc : h.Chain firstBlock cs) :
    h.growthFor last size = size - (last.map fun b => b.2.size).getD 0 := by
  cases last with
  | none => simp [growthFor, growthBlock]
  | some b =>
    have hend := he.last_end hc
    show size - (h.epilog + wordSize - b.1) = size - b.2.size
    omega

/-- The walk over the blocks sees the free last block. -/
theorem EndsIn.freeTail_views (he : EndsIn cs pre last) (m : Memory) :
    freeTail (cs.map (viewOf m)) = last.map (viewOf m) := by
  rw [he.blocks]
  cases last with
  | some b =>
    have hf : (viewOf m b).isFree = true := he.free b rfl
    simp [freeTail, Option.filter, hf]
  | none =>
    simp only [Option.toList_none, List.append_nil, freeTail, List.getLast?_map, Option.map_none,
      Option.filter_eq_none_iff, Option.map_eq_some_iff]
    rintro _ ⟨b, hb, rfl⟩
    exact he.before b hb

theorem EndsIn.shortfall_views (he : EndsIn cs pre last) (hc : h.Chain firstBlock cs) (m : Memory) :
    shortfall (cs.map (viewOf m)) size = h.growthFor last size := by
  rw [shortfall, he.freeTail_views, he.growthFor_eq hc, Option.map_map]
  rfl

/-- If nothing fits, something is missing, and it is a multiple of eight bytes. -/
theorem EndsIn.growthFor_spec (he : EndsIn cs pre last) (hc : h.Chain firstBlock cs)
    (hb : BlockSize size) (hsmall : ∀ b ∈ cs, b.2.isFree → b.2.size < size) :
    0 < h.growthFor last size ∧ h.growthFor last size % alignment = 0 := by
  have hsize := hb.aligned
  have hlarge := hb.large
  rw [he.growthFor_eq hc]
  cases last with
  | none =>
    refine ⟨?_, hsize⟩
    simp only [Option.map_none, Option.getD_none, minBlock] at *
    omega
  | some b =>
    have hmem : b ∈ cs := by simp [he.blocks]
    have hlt := hsmall b hmem (he.free b rfl)
    have hblock := hc.size_aligned hmem
    simp only [Option.map_some, Option.getD_some, alignment] at *
    omega

/-! ## Taking a block -/

/-- A free block that is large enough is used, and the heap keeps its extent. -/
theorem Sound.acquire_of_free (hs : h.Sound cs ls) (hb : BlockSize size) (limit : Nat)
    (hfree : ∃ b ∈ cs, b.2.isFree ∧ size ≤ b.2.size) :
    ∃ grant h', h.acquire limit size = .ok (.ok grant, h') ∧ h'.size = h.size := by
  cases hx : fit cs ls size with
  | some x =>
    obtain ⟨⟨found, status⟩, hm, hf, -⟩ := hs.consistent.listed.fit hs.chain.tiles hx
    obtain rfl : status = .free := Tag.isFree_iff.mp hf
    obtain ⟨pre, post, hcs⟩ := List.append_of_mem hm
    obtain ⟨h', hrun, hbec, hep⟩ := hs.acquire_reused limit hb hx hcs
    exact ⟨_, h', hrun, hs.size_eq (n := 0) hbec.sound hep⟩
  | none =>
    obtain ⟨b, hm, hf, hle⟩ := hfree
    have := hs.complete.fit_eq_none hs.chain.tiles hx hm hf
    omega

/-- Otherwise first fit finds nothing. -/
theorem Sound.fit_eq_none (hs : h.Sound cs ls)
    (hsmall : ∀ b ∈ cs, b.2.isFree → b.2.size < size) : fit cs ls size = none := by
  cases hx : fit cs ls size with
  | none => rfl
  | some x =>
    obtain ⟨tag, hm, hf, -, hle⟩ := hs.consistent.listed.fit hs.chain.tiles hx
    exact absurd (hsmall _ hm hf) (Nat.not_lt.mpr hle)

/-- Then the heap grows as far as the limits allow, and the new block reaches its end. -/
theorem Sound.acquire_at_end (hs : h.Sound cs ls) (hb : BlockSize size) (limit : Nat)
    (he : EndsIn cs pre last) (hsmall : ∀ b ∈ cs, b.2.isFree → b.2.size < size) :
    (h.size + h.growthFor last size ≤ min limit maxWord ∧ ∃ h' ls',
      h.acquire limit size =
        .ok (.ok (.grown (h.growthBlock last) (h.growthFor last size) last.isSome), h') ∧
      h'.Sound (pre ++ [(h.growthBlock last, ⟨size, .allocated⟩)]) ls' ∧
      h'.size = h.size + h.growthFor last size) ∨
    (min limit maxWord < h.size + h.growthFor last size ∧
      ∃ cause, h.acquire limit size = .ok (.error cause, h)) := by
  have hx := hs.fit_eq_none hsmall
  cases hg : h.growthRefusal limit (h.growthFor last size) with
  | none =>
    obtain ⟨h', hrun, hbec, hep⟩ := hs.acquire_grown hb hx he hg
    exact .inl ⟨growthRefusal_eq_none.mp hg, h', _, hrun, hbec.sound,
      hs.size_eq hbec.sound hep⟩
  | some cause =>
    exact .inr ⟨growthRefusal_ne_none.mp (by simp [hg]), cause, hs.acquire_refused hb hx he hg⟩

end Heap

namespace Allocator

open Heap

variable {a a' : Allocator} {cs : List TaggedBlock} {ls : Nat → List Nat} {n size : Nat}

/-! ## Requests -/

/-- A request for bytes is answered as the heap answers it. -/
theorem serve_of_acquire (hn : n ≠ 0) (hsize : blockSizeFor n = some size)
    {result : Except Exhausted Grant} {heap : Heap}
    (h : a.heap.acquire a.limit size = .ok (result, heap)) (symbol : String) :
    ∃ a', a.serve symbol n =
      .ok ((result.map fun grant => some grant.block).mapError .outOfMemory, a') ∧
      a'.heap = heap := by
  unfold serve sizeFor acquire
  rw [if_neg hn, hsize]
  simp only [h, ok_bind]
  cases result with
  | error cause => exact ⟨_, rfl, rfl⟩
  | ok grant => cases grant <;> exact ⟨_, rfl, rfl⟩

/-- The operation is answered as its step. -/
theorem allocate_of_serve (hs : a.heap.Sound cs ls) {result : Except Refusal (Option Nat)}
    (h : a.serve "malloc" n = .ok (result, a')) : a.allocate n = .ok (result, a') := by
  rcases allocate_spec hs n with ⟨_, _, hrun, -⟩ | ⟨_, _, _, _, hrun, -⟩
  all_goals
    have hreply := Except.ok.inj ((settle_eq_ok hrun).symm.trans h)
    rw [hrun, hreply]

/-- The block at `ptr` of `size` bytes ends the heap of `a'`, after the blocks `bs` but for the free
one at their end, whose place it has taken. -/
structure AtEnd (bs : List Block) (size ptr : Nat) (a' : Allocator) : Prop where
  layout : ∃ kept bs', bs = kept ++ (freeTail bs).toList ∧ a'.blocks = .ok bs' ∧
    bs'.map Block.tagged = kept.map Block.tagged ++ [(ptr, ⟨size, .allocated⟩)]
  last : ptr + size = a'.heap.epilog + wordSize
  absorbs : ∀ b ∈ freeTail bs, b.offset = ptr

/-- How a request for a block of `size` bytes ends, in a heap with the blocks `bs` that can grow up
to `limit`. -/
structure Decides (a : Allocator) (limit : Nat) (bs : List Block) (size : Nat)
    (result : Except Refusal (Option Nat)) (a' : Allocator) : Prop where
  /-- A free block that is large enough is used. -/
  reused : (∃ b ∈ bs, b.isFree ∧ size ≤ b.size) →
    (∃ ptr, result = .ok (some ptr)) ∧ a'.heap.size = a.heap.size
  /-- Otherwise bytes are missing at the end. -/
  missing : (∀ b ∈ bs, b.isFree → b.size < size) →
    0 < shortfall bs size ∧ shortfall bs size % alignment = 0
  /-- The heap grows by just these, -/
  grown : (∀ b ∈ bs, b.isFree → b.size < size) → a.heap.size + shortfall bs size ≤ limit →
    a'.heap.size = a.heap.size + shortfall bs size ∧
      ∃ ptr, result = .ok (some ptr) ∧ AtEnd bs size ptr a'
  /-- unless it would pass the limit. -/
  refused : (∀ b ∈ bs, b.isFree → b.size < size) → limit < a.heap.size + shortfall bs size →
    ∃ cause, result = .error (.outOfMemory cause)

/-- A block size is served as the free blocks and the limits decide. -/
theorem serve_decides (hs : a.heap.Sound cs ls) (hn : n ≠ 0) (hsize : blockSizeFor n = some size)
    (symbol : String) :
    ∃ result a', a.serve symbol n = .ok (result, a') ∧ (∀ k, result ≠ .error (.requestTooLarge k)) ∧
      a.Decides (min a.limit maxWord) (cs.map (viewOf a.heap.mem)) size result a' := by
  obtain ⟨hb, -⟩ := blockSizeFor_spec hsize
  obtain ⟨pre, last, he⟩ := exists_endsIn hs.shape.separated
  by_cases hfree : ∃ b ∈ cs, b.2.isFree ∧ size ≤ b.2.size
  · obtain ⟨grant, heap, hrun, hsz⟩ := hs.acquire_of_free hb a.limit hfree
    obtain ⟨a', hserve, rfl⟩ := serve_of_acquire hn hsize hrun symbol
    have hbig : ¬ ∀ b ∈ cs.map (viewOf a.heap.mem), b.isFree → b.size < size := fun hsmall => by
      obtain ⟨b, hm, hf, hle⟩ := hfree
      exact Nat.not_lt.mpr hle (hsmall _ (List.mem_map_of_mem hm) hf)
    exact ⟨_, a', hserve, fun k => by simp [Except.map, Except.mapError],
      fun _ => ⟨⟨_, rfl⟩, hsz⟩, fun h => absurd h hbig, fun h => absurd h hbig,
      fun h => absurd h hbig⟩
  · have hsmall : ∀ b ∈ cs, b.2.isFree → b.2.size < size :=
      fun b hm hf => Nat.lt_of_not_le fun hle => hfree ⟨b, hm, hf, hle⟩
    have hnone : ¬ ∃ b ∈ cs.map (viewOf a.heap.mem), b.isFree ∧ size ≤ b.size := by
      rintro ⟨_, hview, hf, hle⟩
      obtain ⟨b, hm, rfl⟩ := List.mem_map.mp hview
      exact hfree ⟨b, hm, hf, hle⟩
    have hmiss : shortfall (cs.map (viewOf a.heap.mem)) size = a.heap.growthFor last size :=
      he.shortfall_views hs.chain _
    have hspec := he.growthFor_spec hs.chain hb hsmall
    rcases hs.acquire_at_end hb a.limit he hsmall with
      ⟨hle, heap, ls', hrun, hs', hsz⟩ | ⟨hlt, cause, hrun⟩
    · obtain ⟨a', hserve, rfl⟩ := serve_of_acquire hn hsize hrun symbol
      refine ⟨_, a', hserve, fun k => by simp [Except.map, Except.mapError],
        fun h => absurd h hnone, fun _ => hmiss ▸ hspec,
        fun _ _ => ⟨hmiss ▸ hsz, _, rfl, ⟨pre.map (viewOf a.heap.mem), _, ?_,
          hs'.consistent.blocks, ?_⟩, (tiles_around.mp hs'.chain.tiles).2.2, ?_⟩,
        fun _ hlt => absurd hle (Nat.not_le.mpr (hmiss ▸ hlt))⟩
      · rw [he.freeTail_views, he.blocks]
        cases last <;> simp
      · rw [map_tagged_views, map_tagged_views]
        rfl
      · rw [he.freeTail_views]
        rintro _ hview
        obtain ⟨b, rfl, rfl⟩ := Option.map_eq_some_iff.mp hview
        rfl
    · obtain ⟨a', hserve, -⟩ := serve_of_acquire hn hsize hrun symbol
      exact ⟨_, a', hserve, fun k => by simp [Except.map, Except.mapError],
        fun h => absurd h hnone, fun _ => hmiss ▸ hspec,
        fun _ hle => absurd (hmiss ▸ hle) (Nat.not_le.mpr hlt), fun _ _ => ⟨cause, rfl⟩⟩

variable {settings : Settings} {live : List Nat}

/-- In every state that clients can reach, a request for bytes is too large if no tag can describe
the block; else a free block that is large enough is used and the heap keeps its size; else the
heap grows by exactly what is missing, with the new block at its end in the place of a free last
block, if this stays within the limit and within what words can address, and memory is out
otherwise. -/
theorem Reachable.allocate_decided (h : Reachable settings a live) (hn : 0 < n) :
    ∃ bs result a', a.blocks = .ok bs ∧ a.allocate n = .ok (result, a') ∧
      (result = .error (.requestTooLarge n) ↔ maxBlock - overhead < n) ∧
      (n ≤ maxBlock - overhead → ∃ size, blockSizeFor n = some size ∧
        a.Decides (min settings.heapLimit maxWord) bs size result a') := by
  obtain ⟨cs, ls, ⟨hs, -⟩, -⟩ := h.tracks
  have hn : n ≠ 0 := Nat.ne_of_gt hn
  rw [← h.strained.2]
  cases hsize : blockSizeFor n with
  | none =>
    have hlarge := blockSizeFor_eq_none_iff.mp hsize
    have hrun : a.serve "malloc" n =
        .ok (.error (.requestTooLarge n), a.note (.requestTooLarge "malloc" n)) := by
      unfold serve sizeFor
      rw [if_neg hn, hsize]
      rfl
    exact ⟨_, _, _, hs.consistent.blocks, allocate_of_serve hs hrun, by simpa using hlarge,
      fun hle => absurd hlarge (Nat.not_lt.mpr hle)⟩
  | some size =>
    have hfits : ¬ maxBlock - overhead < n := fun hlt => by
      rw [blockSizeFor_eq_none_iff.mpr hlt] at hsize
      cases hsize
    obtain ⟨result, a', hserve, hother, hdecides⟩ := serve_decides hs hn hsize "malloc"
    exact ⟨_, result, a', hs.consistent.blocks, allocate_of_serve hs hserve,
      ⟨fun he => absurd he (hother n), fun hlt => absurd hlt hfits⟩,
      fun _ => ⟨size, rfl, hdecides⟩⟩

/-- Growth up to the last byte of the limit: of 56 bytes, the free last block has 48. -/
theorem allocate_decided_limit :
    ∃ a bs result a', session { heapLimit := 288 } [.allocate 8, .allocate 40, .release 128] =
        some (a, [112]) ∧ a.blocks = .ok bs ∧ a.heap.size = 280 ∧
      bs.map Block.tagged = [(112, ⟨16, .allocated⟩), (128, ⟨48, .free⟩)] ∧
      a.allocate 48 = .ok (result, a') ∧ a.Decides 288 bs 56 result a' := by
  have hall : (session { heapLimit := 288 } [.allocate 8, .allocate 40, .release 128]).map
      (fun s => decide (s.2 = [112] ∧ s.1.heap.size = 280 ∧
        s.1.blocks.map (·.map Block.tagged) =
          .ok [(112, ⟨16, .allocated⟩), (128, ⟨48, .free⟩)])) = some true := by
    decide +kernel
  obtain ⟨⟨a, live⟩, hrun, hfacts⟩ := Option.map_eq_some_iff.mp hall
  obtain ⟨rfl, hsize, hblocks⟩ := of_decide_eq_true hfacts
  obtain ⟨bs, result, a', hbs, halloc, -, hfits⟩ :=
    Reachable.allocate_decided (n := 48) (.of_session hrun) (by decide)
  obtain ⟨size, hsz, hdecides⟩ := hfits (by decide)
  obtain rfl : 56 = size := Option.some.inj hsz
  rw [hbs] at hblocks
  exact ⟨a, bs, result, a', hrun, hbs, hsize, Except.ok.inj hblocks, halloc, hdecides⟩

end Allocator

end SegFit
