/-
  Carving an allocation out of a region.  A region of the heap that holds no listed block
  becomes an allocated block, with a free one behind it if enough is left
  (`Consistent.carve`).  Free blocks that are in the way are taken off their lists before
  (`Consistent.removeAny`).
-/
import SegFit.Heap.Acquire
import SegFit.Proofs.Sound

namespace SegFit

/-- A size that the block of an allocation can have. -/
structure BlockSize (size : Nat) : Prop where
  large : minBlock ≤ size
  aligned : size % alignment = 0
  small : size ≤ maxBlock

theorem BlockSize.encodable {size : Nat} (h : BlockSize size) (s : Status) :
    (⟨size, s⟩ : Tag).Encodable :=
  ⟨h.aligned, h.small⟩

/-- The block size for a request is one that blocks can have, with room for the request. -/
theorem blockSizeFor_spec {n size : Nat} (h : blockSizeFor n = some size) :
    BlockSize size ∧ n + overhead ≤ size := by
  unfold blockSizeFor alignUp at h
  split at h
  · simp only [Option.bind_some] at h
    split at h
    · obtain rfl := Option.some.inj h
      simp only [alignment, overhead, minBlock, maxBlock] at *
      refine ⟨⟨Nat.le_max_right _ _, ?_, ?_⟩, by omega⟩
      · show _ % 8 = 0
        omega
      · show _ ≤ 0xFFFFFFF8
        omega
    · cases h
  · cases h

namespace Heap

variable {h : Heap} {cs pre mid post : List TaggedBlock} {ls : Nat → List Nat}

/-! ## Regions -/

/-- Blocks that tile a region have, together, a size that a tag can describe. -/
theorem Consistent.encodable_region (hk : h.Consistent (pre ++ mid ++ post) ls) {block total : Nat}
    (hpre : Tiles firstBlock pre block) (hmid : Tiles block mid (block + total))
    (hpost : Tiles (block + total) post (h.epilog + wordSize)) (s : Status) :
    (⟨total, s⟩ : Tag).Encodable := by
  have hroom := hk.room
  have hsmall := hk.small
  have h1 := hpre.le
  have h2 := hpost.le
  have hmark : ∀ b ∈ pre ++ mid ++ post, b.2.Encodable :=
    fun b hb => (hk.chain.marked hb).encodable
  have h3 := (hpre.aligned (by decide) fun b hb => hmark b (by simp [hb])).2
  have h4 := (hmid.aligned h3 fun b hb => hmark b (by simp [hb])).2
  simp only [Tag.Encodable, alignment, maxBlock, maxWord, epilogBytes, firstBlock, prologEnd,
    overhead, wordSize, nodeSize, Bucket.count] at *
  omega

/-- Giving a region without listed blocks the tags of one block keeps the heap consistent. -/
theorem Consistent.retag (hk : h.Consistent (pre ++ mid ++ post) ls) (status : Status)
    {block size : Nat} (hpre : Tiles firstBlock pre block) (hmid : Tiles block mid (block + size))
    (hpost : Tiles (block + size) post (h.epilog + wordSize))
    (hfree : ∀ b ∈ mid, ∀ c < Bucket.count, b.1 ∉ ls c) (hlarge : minBlock ≤ size) :
    ∃ m, h.mem.setTags block size status = .ok m ∧
      Consistent ⟨m, h.epilog⟩ (pre ++ [(block, ⟨size, status⟩)] ++ post) ls ∧
      (h.Exact (pre ++ mid ++ post) →
        Exact ⟨m, h.epilog⟩ (pre ++ [(block, ⟨size, status⟩)] ++ post)) ∧
      h.mem.ChangesOnly m (Memory.TagByte (block, ⟨size, status⟩)) := by
  have henc := hk.encodable_region hpre hmid hpost status
  have hroom := hk.room
  have hstart := hpre.le
  have hstop := hpost.le
  have hwb : wordSize ≤ block := by
    simp only [firstBlock, overhead, wordSize] at *
    omega
  have hfit : block + size ≤ h.mem.size + wordSize := by
    simp only [Heap.size] at hroom
    omega
  obtain ⟨m, hset, hc, hm, hw⟩ :=
    Memory.setTags_spec (b := (block, ⟨size, status⟩)) henc hwb hlarge hfit hk.small
  have hnews : Tiles block [(block, ⟨size, status⟩)] (block + size) := ⟨rfl, hlarge, rfl⟩
  obtain ⟨hk', he'⟩ := hk.replace hpre hmid hpost hnews hfree hc
    (fun j hj => by
      simp only [Memory.TagByte, InWord, minBlock, overhead, wordSize] at *
      omega)
    (fun b hb => List.mem_singleton.mp hb ▸ hm)
  exact ⟨m, hset, hk', he' fun b hb => List.mem_singleton.mp hb ▸ hw, hc⟩

/-- No allocated block is on a list. -/
theorem Consistent.not_mem_of_allocated (hk : h.Consistent cs ls) {b : TaggedBlock} (hb : b ∈ cs)
    (ha : b.2.status = .allocated) {c : Nat} (hc : c < Bucket.count) : b.1 ∉ ls c := by
  intro hm
  obtain ⟨tag, hmem, hf, -⟩ := hk.listed c hc _ hm
  have he : tag = b.2 := congrArg Prod.snd (hk.chain.tiles.eq_of_offset hmem hb rfl)
  rw [he, Tag.isFree_iff, ha] at hf
  cases hf

/-! ## Taking blocks off their lists -/

/-- The lists without the block given, if there is one. -/
def dropAny (ls : Nat → List Nat) : Option Nat → Nat → List Nat
  | none => ls
  | some x => dropNode ls x

theorem mem_of_mem_dropAny {x : Option Nat} {y b : Nat} (hy : y ∈ dropAny ls x b) : y ∈ ls b := by
  cases x with
  | none => exact hy
  | some x => exact mem_of_mem_dropNode hy

theorem Complete.dropAny (hc : Complete cs ls) {x : Option Nat} (hx : ∀ b ∈ cs, x ≠ some b.1) :
    Complete cs (dropAny ls x) := by
  cases x with
  | none => exact hc
  | some x => exact hc.dropNode fun b hb he => hx b hb (by rw [he])

theorem not_mem_dropAny {x b : Nat} (hn : (ls b).Nodup) : x ∉ dropAny ls (some x) b :=
  fun hm => (List.Nodup.mem_erase_iff hn).mp hm |>.1 rfl

/-- Taking a block, if there is one, off its list keeps the heap consistent. -/
theorem Consistent.removeAny (hk : h.Consistent cs ls) {x : Option Nat}
    (hx : ∀ y ∈ x, ∃ b < Bucket.count, y ∈ ls b) :
    ∃ m, h.removeAny x = .ok ⟨m, h.epilog⟩ ∧ Consistent ⟨m, h.epilog⟩ cs (dropAny ls x) ∧
      (h.Exact cs → Exact ⟨m, h.epilog⟩ cs) ∧ h.mem.ChangesOnly m (h.LinkByte ls) ∧
      ∀ j, m.OddAt j → h.mem.OddAt j := by
  cases x with
  | none => exact ⟨h.mem, rfl, hk, id, .refl _ _, fun _ => id⟩
  | some y =>
    obtain ⟨b, hb, hy⟩ := hx y rfl
    obtain ⟨m, hm, hk', he, hc⟩ := hk.unlink hb hy
    refine ⟨m, ?_, hk', he, hc.mono fun j hj => hj.of_subset fun c z hz => mem_of_mem_dropNode hz,
      fun j => hk'.odd_of_relink hc⟩
    rw [Heap.removeAny, remove, hm]
    rfl

/-! ## Carving -/

/-- The free block that is left of a region, if it can stand alone. -/
def remainder (block total size : Nat) : Option TaggedBlock :=
  if minBlock ≤ total - size then some (block + size, ⟨total - size, .free⟩) else none

/-- The bytes of a region of `total` that an allocation of `size` bytes takes. -/
def placed (total size : Nat) : Nat :=
  if minBlock ≤ total - size then size else total

/-- The blocks that a region becomes. -/
def carved (block total size : Nat) : List TaggedBlock :=
  (block, ⟨placed total size, .allocated⟩) :: (remainder block total size).toList

/-- The lists with the block given, if there is one, at the front of its bucket's. -/
def pushAny (ls : Nat → List Nat) : Option TaggedBlock → Nat → List Nat
  | none => ls
  | some b => pushNode ls (Bucket.ofSize b.2.size) b.1

theorem le_placed {total size : Nat} (h : size ≤ total) : size ≤ placed total size := by
  unfold placed
  split <;> omega

theorem tiles_carved {block total size : Nat} (hl : minBlock ≤ size) (hle : size ≤ total) :
    Tiles block (carved block total size) (block + total) := by
  unfold carved placed remainder
  split
  · rename_i hr
    refine ⟨rfl, hl, rfl, hr, ?_⟩
    show block + size + (total - size) = block + total
    omega
  · exact ⟨rfl, Nat.le_trans hl hle, rfl⟩

theorem Complete.carved {block total size : Nat} (hc : Complete (pre ++ post) ls) :
    Complete (pre ++ Heap.carved block total size ++ post)
      (pushAny ls (remainder block total size)) := by
  have hold : ∀ b ∈ pre ++ Heap.carved block total size ++ post, b.2.isFree →
      b ∈ pre ++ post ∨ b ∈ remainder block total size := by
    intro b hb hf
    simp only [Heap.carved, List.mem_append, List.mem_cons, Option.mem_toList] at hb ⊢
    rcases hb with (hb | rfl | hb) | hb
    · exact .inl (.inl hb)
    · exact absurd hf (by simp [Tag.isFree])
    · exact .inr hb
    · exact .inl (.inr hb)
  intro b hb hf
  cases hr : remainder block total size with
  | none => exact hc b ((hold b hb hf).resolve_right (by simp [hr])) hf
  | some c =>
    rcases hold b hb hf with hb | hb
    · exact mem_pushNode.mpr (.inr (hc b hb hf))
    · obtain rfl : c = b := by simpa [hr] using hb
      exact mem_pushNode.mpr (.inl ⟨rfl, rfl⟩)

/-- What is left of a region keeps the blocks separated if the block after it is in use. -/
theorem separated_carved {block total size : Nat} (hpre : Separated pre) (hpost : Separated post)
    (hafter : ∀ c ∈ post.head?, ¬ c.2.isFree) :
    Separated (pre ++ carved block total size ++ post) := by
  have hhead : ¬ (⟨placed total size, .allocated⟩ : Tag).isFree := by simp [Tag.isFree]
  have hcarved : Separated (carved block total size) := by
    unfold carved
    cases remainder block total size with
    | none => trivial
    | some c => exact ⟨fun hf => hhead hf.1, trivial⟩
  refine separated_append.mpr ⟨separated_append.mpr ⟨hpre, hcarved, fun b _ c hc hf => ?_⟩, hpost,
    fun b _ c hc hf => hafter c hc hf.2⟩
  obtain rfl : (block, ⟨placed total size, .allocated⟩) = c := Option.some.inj hc
  exact hhead hf.2

theorem carved_of_remainder {block total size : Nat} (hr : minBlock ≤ total - size) :
    carved block total size =
      [(block, ⟨size, .allocated⟩), (block + size, ⟨total - size, .free⟩)] := by
  unfold carved placed remainder
  rw [if_pos hr, if_pos hr]
  rfl

theorem carved_of_no_remainder {block total size : Nat} (hr : ¬ minBlock ≤ total - size) :
    carved block total size = [(block, ⟨total, .allocated⟩)] := by
  unfold carved placed remainder
  rw [if_neg hr, if_neg hr]
  rfl

/-- No offset in a region without listed blocks is on a list. -/
theorem Consistent.not_mem_region (hk : h.Consistent (pre ++ mid ++ post) ls) {block stop : Nat}
    (hpre : Tiles firstBlock pre block) (hpost : Tiles stop post (h.epilog + wordSize))
    (hfree : ∀ b ∈ mid, ∀ c < Bucket.count, b.1 ∉ ls c) {x : Nat} (hx : block ≤ x)
    (hxs : x < stop) {c : Nat} (hc : c < Bucket.count) : x ∉ ls c := by
  intro hm
  obtain ⟨tag, hin, -⟩ := hk.listed_outside hfree c hc x hm
  have := hpre.outside (Nat.le_of_lt (Nat.lt_of_le_of_lt hx hxs)) hpost hin
  simp only [minBlock] at this
  omega

/-- An allocation that leaves a remainder makes this a free block at the front of its list. -/
theorem Consistent.carve_remainder (hk : h.Consistent (pre ++ mid ++ post) ls)
    {block total size : Nat} (hpre : Tiles firstBlock pre block)
    (hmid : Tiles block mid (block + total))
    (hpost : Tiles (block + total) post (h.epilog + wordSize))
    (hfree : ∀ b ∈ mid, ∀ c < Bucket.count, b.1 ∉ ls c) (hs : BlockSize size)
    (hr : minBlock ≤ total - size) :
    ∃ m, h.mem.carve block total size = .ok (placed total size, m) ∧
      Consistent ⟨m, h.epilog⟩ (pre ++ carved block total size ++ post)
        (pushAny ls (remainder block total size)) ∧
      (h.Exact (pre ++ mid ++ post) →
        Exact ⟨m, h.epilog⟩ (pre ++ carved block total size ++ post)) ∧
      h.mem.ChangesOnly m (h.StructByte (pre ++ carved block total size ++ post)) := by
  have hroom := hk.room
  have hstart := hpre.le
  have hstop := hpost.le
  have hle : size ≤ total := by
    simp only [minBlock] at hr
    omega
  have htiles : Tiles block (carved block total size) (block + total) := tiles_carved hs.large hle
  have hrenc : (⟨total - size, .free⟩ : Tag).Encodable := by
    have := hk.encodable_region hpre hmid hpost .free
    have := hs.aligned
    simp only [Tag.Encodable, alignment, maxBlock] at *
    omega
  obtain ⟨m₁, m₂, hset₁, hset₂, hall, hmark⟩ := Memory.setTags_adjoining (m := h.mem)
    (b := (block, ⟨size, .allocated⟩)) (c := (block + size, ⟨total - size, .free⟩))
    (hs.encodable .allocated) hrenc rfl
    (by simp only [firstBlock, overhead, wordSize] at *; omega) hs.large hr
    (by simp only [Heap.size] at *; omega) hk.small
  rw [← carved_of_remainder hr] at hall hmark
  obtain ⟨hk₂, he₂⟩ := hk.replace hpre hmid hpost htiles hfree hall
    (fun j hx => by
      obtain ⟨b, hb, hj⟩ := hx
      have := htiles.bounds hb
      simp only [Memory.TagByte, InWord, minBlock, overhead, wordSize] at *
      omega) fun b hb => (hmark b hb).1
  have hmem : (block + size, ⟨total - size, .free⟩) ∈ pre ++ carved block total size ++ post := by
    simp [carved_of_remainder hr]
  have hlarge := hs.large
  simp only [minBlock] at hr hlarge
  obtain ⟨m, hm, hk', he', hc'⟩ := hk₂.pushFree hmem rfl fun c hc =>
    hk.not_mem_region hpre hpost hfree (Nat.le_add_right ..) (by omega) hc
  have hrem : remainder block total size = some (block + size, ⟨total - size, .free⟩) := if_pos hr
  refine ⟨m, ?_, hrem ▸ hk', fun he => he' (he₂ (fun b hb => (hmark b hb).2) he), ?_⟩
  · unfold Memory.carve
    rw [difference_of_le hle, ok_bind, if_pos hr, hset₁, ok_bind, hset₂, ok_bind, hm,
      show placed total size = size from if_pos hr]
    rfl
  · refine (hall.mono fun j hx => ?_).trans
      (hc'.mono fun j hj => structByte_of_linkByte hk'.listed hj)
    obtain ⟨b, hb, hj⟩ := hx
    exact .inr (.inr ⟨b, by simp [hb], .inl hj⟩)

/-- An allocation that leaves no remainder takes the whole region. -/
theorem Consistent.carve_whole (hk : h.Consistent (pre ++ mid ++ post) ls)
    {block total size : Nat} (hpre : Tiles firstBlock pre block)
    (hmid : Tiles block mid (block + total))
    (hpost : Tiles (block + total) post (h.epilog + wordSize))
    (hfree : ∀ b ∈ mid, ∀ c < Bucket.count, b.1 ∉ ls c) (hs : BlockSize size)
    (hle : size ≤ total) (hr : ¬ minBlock ≤ total - size) :
    ∃ m, h.mem.carve block total size = .ok (placed total size, m) ∧
      Consistent ⟨m, h.epilog⟩ (pre ++ carved block total size ++ post)
        (pushAny ls (remainder block total size)) ∧
      (h.Exact (pre ++ mid ++ post) →
        Exact ⟨m, h.epilog⟩ (pre ++ carved block total size ++ post)) ∧
      h.mem.ChangesOnly m (h.StructByte (pre ++ carved block total size ++ post)) := by
  have hrem : remainder block total size = none := if_neg hr
  rw [carved_of_no_remainder hr, hrem]
  obtain ⟨m, hset, hk', he', hc⟩ := hk.retag .allocated hpre hmid hpost hfree
    (Nat.le_trans hs.large hle)
  refine ⟨m, ?_, hk', he', hc.mono fun j hj => .inr (.inr ⟨_, by simp, .inl hj⟩)⟩
  unfold Memory.carve
  rw [difference_of_le hle, ok_bind, if_neg hr, hset, ok_bind,
    show placed total size = total from if_neg hr]
  rfl

/-- Carving an allocation out of a region without listed blocks keeps the heap consistent. -/
theorem Consistent.carve (hk : h.Consistent (pre ++ mid ++ post) ls) {block total size : Nat}
    (hpre : Tiles firstBlock pre block) (hmid : Tiles block mid (block + total))
    (hpost : Tiles (block + total) post (h.epilog + wordSize))
    (hfree : ∀ b ∈ mid, ∀ c < Bucket.count, b.1 ∉ ls c) (hs : BlockSize size)
    (hle : size ≤ total) :
    ∃ m, h.mem.carve block total size = .ok (placed total size, m) ∧
      Consistent ⟨m, h.epilog⟩ (pre ++ carved block total size ++ post)
        (pushAny ls (remainder block total size)) ∧
      (h.Exact (pre ++ mid ++ post) →
        Exact ⟨m, h.epilog⟩ (pre ++ carved block total size ++ post)) ∧
      h.mem.ChangesOnly m (h.StructByte (pre ++ carved block total size ++ post)) := by
  by_cases hr : minBlock ≤ total - size
  · exact hk.carve_remainder hpre hmid hpost hfree hs hr
  · exact hk.carve_whole hpre hmid hpost hfree hs hle hr

end Heap

end SegFit
