/-
  Neighbours.  The words around a block tell what lies before and after it, the zero words at
  both ends standing for blocks in use.  `Around` names the neighbours of a block that are
  free; since no two free blocks are adjacent, what lies beyond them is in use.
-/
import SegFit.Proofs.Sound

namespace SegFit

namespace Heap

variable {h : Heap} {cs pre post : List TaggedBlock} {ls : Nat → List Nat} {b : TaggedBlock}

/-! ## Reading the neighbours -/

/-- The header of a block gives its size. -/
theorem Legible.blockSize (hk : h.Legible cs ls) (hb : b ∈ cs) :
    h.mem.blockSize b.1 = .ok b.2.size := by
  have hbb := hk.chain.bounds hb
  have hroom := hk.room
  refine Memory.blockSize_of_marked (hk.chain.marked hb) ?_ ?_
  · simp only [firstBlock, overhead, wordSize] at *
    omega
  · simp only [size, minBlock, wordSize] at *
    omega

theorem Consistent.blockSize (hk : h.Consistent cs ls) (hb : b ∈ cs) :
    h.mem.blockSize b.1 = .ok b.2.size :=
  hk.legible.blockSize hb

/-- The word after a block is the header of the next one, or the epilog header. -/
theorem Consistent.tagOf_next (hk : h.Consistent (pre ++ b :: post) ls) :
    h.mem.tagOf (b.1 + b.2.size) = .ok (post.head?.map Prod.snd) := by
  have hroom := hk.room
  obtain ⟨hpre, hlarge, hpost⟩ := tiles_around.mp hk.chain.tiles
  have hle := hpost.le
  have hin : b.1 + b.2.size ≤ h.mem.size := by
    simp only [Heap.size, epilogBytes, wordSize] at *
    omega
  rw [Memory.tagOf_of_le (by simp only [minBlock, wordSize] at *; omega) hin]
  cases post with
  | nil =>
    have hend : b.1 + b.2.size = h.epilog + wordSize := hpost
    rw [show b.1 + b.2.size - wordSize = h.epilog by omega, hk.chain.zero]
    rfl
  | cons c post =>
    rw [← hpost.1, (hk.chain.marked (b := c) (by simp)).header]
    rfl

/-- The word before the end of a block is its footer. -/
theorem Chain.decode_footer (hc : h.Chain firstBlock (pre ++ b :: post)) :
    Tag.decode (h.mem.word (b.1 + b.2.size - overhead)) = some b.2 := by
  have hm := hc.marked (b := b) (by simp)
  have hlarge := (tiles_around.mp hc.tiles).2.1
  rw [hm.footer, Tag.decode_word hm.encodable (by simp only [minBlock] at hlarge; omega)]

/-- The word before the header at `stop`, where the blocks `pre` end, tells whether the last of
them is free; without blocks it is the word before the first block. -/
theorem Chain.freeTag_before (hc : h.Chain firstBlock (pre ++ post)) {stop : Nat}
    (hp : Tiles firstBlock pre stop)
    (hg : Memory.freeTag (Tag.decode (h.mem.word prologEnd)) = none) :
    Memory.freeTag (Tag.decode (h.mem.word (stop - overhead))) =
      Memory.freeTag (pre.getLast?.map Prod.snd) := by
  rcases List.eq_nil_or_concat pre with rfl | ⟨init, c, hi⟩
  · obtain rfl : firstBlock = stop := hp
    exact hg
  · obtain rfl : pre = init ++ [c] := by simpa using hi
    obtain ⟨-, -, hend⟩ := tiles_around.mp hp
    obtain rfl : c.1 + c.2.size = stop := hend
    have hc : h.Chain firstBlock (init ++ c :: post) := by simpa using hc
    rw [hc.decode_footer, List.getLast?_concat]
    rfl

/-! ## Free neighbours -/

/-- No block before a free one is free. -/
theorem Separated.before_free (hs : Separated (pre ++ b :: post)) (hf : b.2.isFree) :
    ∀ c ∈ pre.getLast?, ¬ c.2.isFree :=
  fun c hc hfc => (separated_append.mp hs).2.2 c hc b rfl ⟨hfc, hf⟩

/-- No block after a free one is free. -/
theorem Separated.after_free (hs : Separated (b :: post)) (hf : b.2.isFree) :
    ∀ c ∈ post.head?, ¬ c.2.isFree := by
  have hs : Separated ([b] ++ post) := hs
  exact fun c hc hfc => (separated_append.mp hs).2.2 b rfl c hc ⟨hf, hfc⟩

/-- The blocks `cs` are `pre`, the last of which is in use, and the free block `last`, if there
is one. -/
structure EndsIn (cs pre : List TaggedBlock) (last : Option TaggedBlock) : Prop where
  blocks : cs = pre ++ last.toList
  free : ∀ b ∈ last, b.2.isFree
  before : ∀ b ∈ pre.getLast?, ¬ b.2.isFree

/-- The blocks `cs` are the free block `first`, if there is one, and `post`, the first of which
is in use. -/
structure StartsWith (cs : List TaggedBlock) (first : Option TaggedBlock)
    (post : List TaggedBlock) : Prop where
  blocks : cs = first.toList ++ post
  free : ∀ b ∈ first, b.2.isFree
  after : ∀ b ∈ post.head?, ¬ b.2.isFree

theorem exists_endsIn (hs : Separated cs) : ∃ pre last, EndsIn cs pre last := by
  rcases List.eq_nil_or_concat cs with rfl | ⟨pre, b, hp⟩
  · exact ⟨[], none, rfl, by simp, by simp⟩
  · obtain rfl : cs = pre ++ [b] := by simpa using hp
    by_cases hf : b.2.isFree
    · exact ⟨pre, some b, rfl, by simpa using hf, hs.before_free hf⟩
    · exact ⟨pre ++ [b], none, by simp, by simp, by simpa using hf⟩

theorem exists_startsWith (hs : Separated cs) : ∃ first post, StartsWith cs first post := by
  cases cs with
  | nil => exact ⟨none, [], rfl, by simp, by simp⟩
  | cons b post =>
    by_cases hf : b.2.isFree
    · exact ⟨some b, post, rfl, by simpa using hf, hs.after_free hf⟩
    · exact ⟨none, b :: post, rfl, by simp, by simpa using hf⟩

/-- The blocks `cs` around the block `b`: its free neighbours `prev` and `next`, and what comes
before and after these. -/
structure Around (cs pre : List TaggedBlock) (prev : Option TaggedBlock) (b : TaggedBlock)
    (next : Option TaggedBlock) (post : List TaggedBlock) : Prop where
  blocks : cs = pre ++ (prev.toList ++ b :: next.toList) ++ post
  prev : ∀ c ∈ prev, c.2.isFree
  next : ∀ c ∈ next, c.2.isFree
  before : ∀ c ∈ pre.getLast?, ¬ c.2.isFree
  after : ∀ c ∈ post.head?, ¬ c.2.isFree

theorem exists_around (hs : Separated cs) (hb : b ∈ cs) :
    ∃ pre prev next post, Around cs pre prev b next post := by
  obtain ⟨front, back, rfl⟩ := List.append_of_mem hb
  obtain ⟨hfront, hback, -⟩ := separated_append.mp hs
  have hback : Separated ([b] ++ back) := hback
  have hback := (separated_append.mp hback).2.1
  obtain ⟨pre, prev, hp⟩ := exists_endsIn hfront
  obtain ⟨next, post, hn⟩ := exists_startsWith hback
  exact ⟨pre, prev, next, post, by simp [hp.blocks, hn.blocks], hp.free, hn.free, hp.before,
    hn.after⟩

/-- The tag that is read as that of a free block is that of the free last block. -/
theorem freeTag_getLast {prev : Option TaggedBlock} (hp : ∀ c ∈ prev, c.2.isFree)
    (hb : ∀ c ∈ pre.getLast?, ¬ c.2.isFree) :
    Memory.freeTag ((pre ++ prev.toList).getLast?.map Prod.snd) = prev.map Prod.snd := by
  cases prev with
  | some c =>
    have := hp c rfl
    simp [Memory.freeTag, this]
  | none =>
    simp only [Option.toList_none, List.append_nil, Option.map_none]
    cases hl : pre.getLast? with
    | none => rfl
    | some c =>
      have := hb c hl
      simp [Memory.freeTag, this]

/-- The tag that is read as that of a free block is that of the free first block. -/
theorem freeTag_head {next : Option TaggedBlock} (hn : ∀ c ∈ next, c.2.isFree)
    (ha : ∀ c ∈ post.head?, ¬ c.2.isFree) :
    Memory.freeTag ((next.toList ++ post).head?.map Prod.snd) = next.map Prod.snd := by
  cases next with
  | some c =>
    have := hn c rfl
    simp [Memory.freeTag, this]
  | none =>
    simp only [Option.toList_none, List.nil_append, Option.map_none]
    cases hl : post.head? with
    | none => rfl
    | some c =>
      have := ha c hl
      simp [Memory.freeTag, this]

end Heap

end SegFit
