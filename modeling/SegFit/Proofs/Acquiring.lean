/-
  What taking a block does to a sound heap.  If first fit finds a block, the request is carved
  out of it (`Sound.acquire_reused`); otherwise the heap grows, from the free last block on if
  there is one (`Sound.acquire_grown`), or the growth is refused and the heap is as it was
  (`Sound.acquire_refused`).
-/
import SegFit.Proofs.Carving
import SegFit.Proofs.FirstFit
import SegFit.Proofs.Neighbours

namespace SegFit

namespace Heap

variable {h : Heap} {cs pre mid : List TaggedBlock} {ls : Nat → List Nat} {limit : Nat}

/-- Links of a sound heap are part of its structure. -/
theorem Sound.structByte_of_linkByte (hs : h.Sound cs ls) {j : Nat} (hj : h.LinkByte ls j) :
    h.StructByte cs j :=
  Heap.structByte_of_linkByte hs.shape.listed hj

/-- What growth writes carried structure before or carries it afterwards. -/
theorem structByte_of_growthByte (h' : Heap) {cs' : List TaggedBlock} {b : TaggedBlock}
    (hl : Listed cs' ls) (hb : b ∈ cs') {j : Nat} (hj : GrowthByte ls h'.epilog b j) :
    h'.StructByte cs' j := by
  rcases hj with (⟨c, hc, hj⟩ | hj) | hj
  · refine Heap.structByte_of_linkByte hl ⟨c, hc, ?_⟩
    rcases lastNode_eq_or_mem ls c with he | hx
    · exact .inl (he ▸ hj)
    · exact .inr (.inl ⟨_, hx, inNode_of_succ hj⟩)
  · exact .inr (.inl hj)
  · exact .inr (.inr ⟨b, hb, .inl hj⟩)

/-! ## Stretching -/

/-- A growth that is not refused fits in what links can address, and within the limit.  No address
is out of reach of an arena that words can address. -/
theorem growthRefusal_eq_none {n : Nat} :
    h.growthRefusal limit n = none ↔ h.size + n ≤ min limit maxWord := by
  unfold growthRefusal SegFit.growthRefusal
  by_cases h1 : h.size + n ≤ maxWord
  · have hspace : h.size + n ≤ min limit addressSpace ↔ h.size + n ≤ min limit maxWord := by
      simp only [addressSpace, maxWord] at *
      omega
    rw [if_pos h1, ← hspace]
    split
    · exact iff_of_true rfl ‹_›
    · exact iff_of_false (Option.some_ne_none _) ‹_›
  · simp only [if_neg h1, reduceCtorEq, false_iff]
    omega

theorem growthRefusal_ne_none {n : Nat} :
    h.growthRefusal limit n ≠ none ↔ min limit maxWord < h.size + n := by
  rw [Ne, growthRefusal_eq_none, Nat.not_le]

/-- A region at the end of the heap, in which no block is free but `taken`, if there is one. -/
structure EndRegion (h : Heap) (cs pre mid : List TaggedBlock) (block : Nat)
    (taken : Option Nat) : Prop where
  blocks : cs = pre ++ mid
  before : Tiles firstBlock pre block
  region : Tiles block mid (h.epilog + wordSize)
  free : ∀ x ∈ taken, ∃ tag, (x, tag) ∈ mid ∧ tag.isFree
  only : ∀ b ∈ mid, b.2.isFree → taken = some b.1

variable {block size : Nat} {absorbed : Option Nat}

/-- A refused stretch leaves the heap as it was. -/
theorem EndRegion.stretch_refused (hr : h.EndRegion cs pre mid block absorbed) {cause : Exhausted}
    (hspan : h.epilog + wordSize - block ≤ size)
    (hg : h.growthRefusal limit (size - (h.epilog + wordSize - block)) = some cause) :
    h.stretch limit block size absorbed = .ok (.error cause, h) := by
  unfold stretch
  rw [difference_of_le hr.region.le, ok_bind, difference_of_le hspan, ok_bind, hg]
  rfl

/-- The block taken from a region is on a list. -/
theorem EndRegion.listed (hr : h.EndRegion cs pre mid block absorbed) (hc : Complete cs ls) :
    ∀ x ∈ absorbed, ∃ b < Bucket.count, x ∈ ls b := by
  intro x hx
  obtain ⟨tag, hm, hf⟩ := hr.free x hx
  exact ⟨_, Bucket.ofSize_lt _, hc (x, tag) (by simp [hr.blocks, hm]) hf⟩

/-- Without it, no block of the region is. -/
theorem EndRegion.unlisted (hr : h.EndRegion cs pre mid block absorbed)
    (hk : h.Consistent cs ls) :
    ∀ b ∈ mid, ∀ c < Bucket.count, b.1 ∉ dropAny ls absorbed c := by
  intro b hb c hc hm
  by_cases hf : b.2.isFree
  · rw [hr.only b hb hf] at hm
    exact not_mem_dropAny (hk.nodup c hc) hm
  · have hst : b.2.status = .allocated := by
      cases hst : b.2.status with
      | free => exact absurd (Tag.isFree_iff.mpr hst) hf
      | allocated => rfl
    exact hk.not_mem_of_allocated (by simp [hr.blocks, hb]) hst hc (mem_of_mem_dropAny hm)

/-- With the region in use, all free blocks are listed. -/
theorem EndRegion.complete (hr : h.EndRegion cs pre mid block absorbed) (hc : Complete cs ls) :
    Complete (pre ++ [(block, ⟨size, .allocated⟩)]) (dropAny ls absorbed) := by
  intro b hb hf
  rcases List.mem_append.mp hb with hb | hb
  · have hpre : Complete pre ls := hc.subset fun c hc => by simp [hr.blocks, hc]
    refine hpre.dropAny (fun c hc he => ?_) b hb hf
    obtain ⟨tag, hm, -⟩ := hr.free c.1 he
    have h1 := hr.before.bounds hc
    have h2 := hr.region.bounds hm
    simp only [minBlock] at *
    omega
  · rw [List.mem_singleton.mp hb] at hf
    cases hf

/-- A stretch makes the region an allocated block that reaches the new epilog header. -/
theorem Sound.stretch (hs : h.Sound cs ls) (hr : h.EndRegion cs pre mid block absorbed)
    (hb : BlockSize size) (hspan : h.epilog + wordSize - block ≤ size) (hsep : Separated pre)
    (hg : h.growthRefusal limit (size - (h.epilog + wordSize - block)) = none) :
    ∃ h', h.stretch limit block size absorbed =
        .ok (.ok (size - (h.epilog + wordSize - block)), h') ∧
      h.Becomes cs h' (pre ++ [(block, ⟨size, .allocated⟩)]) (dropAny ls absorbed) ∧
      h'.epilog = h.epilog + (size - (h.epilog + wordSize - block)) := by
  have hrun := difference_of_le hspan
  have hblock := hr.region.le
  have hfits := growthRefusal_eq_none.mp hg
  have hends := hs.span
  generalize hgr : size - (h.epilog + wordSize - block) = growth at *
  have htotal : block + size = h.epilog + wordSize + growth := by omega
  have hk₀ := hs.consistent.extend (n := growth) (by omega)
  obtain ⟨m₁, hm₁, hk₁, he₁, hc₁, ho₁⟩ := hk₀.removeAny (x := absorbed) (hr.listed hs.complete)
  have hsz₁ : (⟨m₁, h.epilog⟩ : Heap).size = h.size + growth :=
    hc₁.size.trans (Memory.size_extend ..)
  obtain ⟨m₂, m', hm₂, hset, hk', he', hc'⟩ :=
    Consistent.grow (h := ⟨m₁, h.epilog⟩) (hr.blocks ▸ hk₁)
      ⟨hr.before, hr.region, hr.unlisted hs.consistent, htotal, hb.large⟩ (hb.encodable _)
      (by simp only [hsz₁]; omega)
  have hgrown : ∀ j, ¬ StructByte ⟨m', h.epilog + growth⟩ (pre ++ [(block, ⟨size, .allocated⟩)]) j →
      m'.byte j = m₁.byte j := fun j hj' => hc'.byte j fun hl =>
    hj' (structByte_of_growthByte ⟨m', h.epilog + growth⟩ hk'.listed (by simp) hl)
  refine ⟨⟨m', h.epilog + growth⟩, ?_, hs.becomes hk' ?_ ?_ (hr.complete hs.complete)
    (fun he => he' (hr.blocks ▸ he₁ (he.extend growth))) (fun j hj hj' => ?_)
    fun j hj' ho => ?_, rfl⟩
  · have hrem : (h.extend growth).removeAny absorbed = .ok ⟨m₁, h.epilog⟩ := hm₁
    unfold Heap.stretch
    rw [difference_of_le hblock, ok_bind, hrun, ok_bind, hg]
    show ((h.extend growth).removeAny absorbed >>= fun h => _) = _
    rw [hrem, ok_bind, hm₂, ok_bind]
    show (m₂.setTags block size .allocated >>= fun m => _) = _
    rw [hset]
    rfl
  · have hsz' : (⟨m', h.epilog + growth⟩ : Heap).size = h.size + growth := hc'.size.trans hsz₁
    rw [hsz', ← hends]
    simp only
    omega
  · refine separated_append.mpr ⟨hsep, trivial, fun b _ c hc hf => ?_⟩
    obtain rfl : (block, ⟨size, .allocated⟩) = c := Option.some.inj hc
    cases hf.2
  · have h1 : m₁.byte j = (h.mem.extend growth).byte j :=
      hc₁.byte j fun hl => hj (hs.structByte_of_linkByte hl)
    exact (hgrown j hj').trans (h1.trans (Memory.byte_extend ..))
  · exact (ho₁ j (ho.congr (hgrown j hj').symm)).congr (Memory.byte_extend ..).symm

/-! ## Growth at the end -/

variable {last : Option TaggedBlock} {b : TaggedBlock}

/-- Where the region that a grown block covers begins. -/
def growthBlock (h : Heap) (last : Option TaggedBlock) : Nat :=
  (last.map Prod.fst).getD (h.epilog + wordSize)

theorem EndsIn.endRegion (he : EndsIn cs pre last) (hc : h.Chain firstBlock cs) :
    h.EndRegion cs pre last.toList (h.growthBlock last) (last.map Prod.fst) := by
  obtain ⟨mid, hpre, hmid⟩ := tiles_append.mp (he.blocks ▸ hc.tiles)
  have hm : mid = h.growthBlock last := by
    cases last with
    | none => exact hmid
    | some b => exact hmid.1.symm
  refine ⟨he.blocks, hm ▸ hpre, hm ▸ hmid, fun x hx => ?_, fun b hb _ => ?_⟩
  · obtain ⟨b, hb, rfl⟩ := Option.map_eq_some_iff.mp hx
    exact ⟨b.2, by simp [hb], he.free b hb⟩
  · rw [Option.mem_toList] at hb
    rw [hb]
    rfl

/-- A free last block reaches the epilog header. -/
theorem EndsIn.last_end (he : EndsIn cs pre (some b)) (hc : h.Chain firstBlock cs) :
    b.1 + b.2.size = h.epilog + wordSize :=
  (tiles_around.mp (he.blocks ▸ hc.tiles : Tiles firstBlock (pre ++ b :: []) _)).2.2

/-- The heap sees whether its last block is free. -/
theorem Sound.growthPoint (hs : h.Sound cs ls) (he : EndsIn cs pre last) :
    h.growthPoint = .ok (h.growthBlock last, last.isSome) := by
  have hep := hs.chain.firstHeader_le
  have hspan := hs.span
  have hle : wordSize ≤ h.epilog := by
    simp only [firstHeader, wordSize] at *
    omega
  have hin : h.epilog - wordSize + wordSize ≤ h.mem.size := by
    simp only [Heap.size, epilogBytes] at hspan
    omega
  have hchain : h.Chain firstBlock (cs ++ []) := by simpa using hs.chain
  have hread := hchain.freeTag_before hs.chain.tiles hs.guard
  rw [show h.epilog + wordSize - overhead = h.epilog - wordSize by
    simp only [overhead, wordSize]; omega, he.blocks, freeTag_getLast he.free he.before] at hread
  unfold Heap.growthPoint
  rw [difference_of_le hle, ok_bind, Memory.tagAt_of_le hin, ok_bind]
  cases last with
  | some b =>
    obtain ⟨hd, hf⟩ := Option.filter_eq_some_iff.mp hread
    have hend := he.last_end hs.chain
    rw [hd]
    show (if b.2.isFree = true then _ else _) = _
    rw [if_pos hf, difference_of_le (by omega), ok_bind,
      show h.epilog + wordSize - b.2.size = b.1 by omega]
    rfl
  | none =>
    cases hd : Tag.decode (h.mem.word (h.epilog - wordSize)) with
    | none => rfl
    | some tag =>
      have hf : ¬ tag.isFree := Option.filter_eq_none_iff.mp hread tag hd
      show (if tag.isFree = true then _ else _) = _
      rw [if_neg hf]
      rfl

/-! ## Taking a block -/

/-- If first fit finds a block, the request is carved out of it. -/
theorem Sound.acquire_reused (hs : h.Sound cs ls) (limit : Nat) (hb : BlockSize size)
    {x found : Nat} {post : List TaggedBlock} (hx : fit cs ls size = some x)
    (hcs : cs = pre ++ (x, ⟨found, .free⟩) :: post) :
    ∃ h', h.acquire limit size = .ok (.ok (.reused x found (placed found size)), h') ∧
      h.Becomes cs h' (pre ++ carved x found size ++ post)
        (pushAny (dropNode ls x) (remainder x found size)) ∧ h'.epilog = h.epilog := by
  have hk := hs.consistent
  obtain ⟨tag, hm, hf, hmem, hle⟩ := hk.listed.fit hk.chain.tiles hx
  have hin : (x, ⟨found, .free⟩) ∈ cs := by simp [hcs]
  obtain rfl : tag = ⟨found, .free⟩ := congrArg Prod.snd (hk.chain.tiles.eq_of_offset hm hin rfl)
  simp only at hle
  obtain ⟨m₁, hm₁, hk₁, he₁, hc₁⟩ := hk.unlink (Bucket.ofSize_lt _) hmem
  obtain ⟨hpre, hlarge, hpost⟩ := tiles_around.mp (hcs ▸ hk.chain.tiles)
  have hcs' : cs = pre ++ [(x, ⟨found, .free⟩)] ++ post := by simp [hcs]
  have hfree : ∀ b ∈ [((x, ⟨found, .free⟩) : TaggedBlock)], ∀ c < Bucket.count,
      b.1 ∉ dropNode ls x c := by
    intro b hb c hc
    rw [List.mem_singleton.mp hb]
    exact not_mem_dropAny (hk.nodup c hc)
  have hk₁' : Consistent ⟨m₁, h.epilog⟩ (pre ++ [(x, ⟨found, .free⟩)] ++ post) (dropNode ls x) :=
    hcs' ▸ hk₁
  obtain ⟨m, hm, hk', he', hc'⟩ := hk₁'.carve hpre ⟨rfl, hlarge, rfl⟩ hpost hfree hb hle
  obtain ⟨hsepre, hsepost, -⟩ := separated_append.mp (hcs ▸ hs.shape.separated)
  refine ⟨⟨m, h.epilog⟩, ?_, hs.becomes hk' ?_ ?_ ?_ (fun he => ?_) (fun j hj hj' => ?_)
    (fun j hj' ho => hk₁.odd_of_relink hc₁ (ho.congr (hc'.byte j hj').symm)), rfl⟩
  · unfold acquire
    rw [hk.firstFit, hx, ok_bind]
    show (h.mem.blockSize x >>= fun found => _) = _
    rw [hk.blockSize hin, ok_bind]
    show ((h.remove x) >>= fun h => _) = _
    rw [remove, hm₁, ok_bind]
    show ((m₁.carve x found size) >>= fun r => _) = _
    rw [hm]
    rfl
  · exact hs.span.trans ((hc'.size.trans hc₁.size).symm)
  · have hafter := hsepost.after_free rfl
    have hsepost : Separated ([(x, ⟨found, .free⟩)] ++ post) := hsepost
    exact separated_carved hsepre (separated_append.mp hsepost).2.1 hafter
  · refine Complete.carved ((hs.complete.subset fun b hb => ?_).dropNode fun b hb hbx => ?_)
    · rcases List.mem_append.mp hb with hb | hb <;> simp [hcs, hb]
    · rcases List.mem_append.mp hb with hb | hb
      · have := hpre.bounds hb
        simp only [minBlock] at *
        omega
      · have := hpost.bounds hb
        simp only [minBlock] at *
        omega
  · exact he' (hcs' ▸ he₁ he)
  · have h1 : m₁.byte j = h.mem.byte j := hc₁.byte j fun hl =>
      hj (hs.structByte_of_linkByte (hl.of_subset fun _ _ => mem_of_mem_dropNode))
    exact (hc'.byte j hj').trans h1

/-- The bytes that growth adds for a block of `size` bytes. -/
def growthFor (h : Heap) (last : Option TaggedBlock) (size : Nat) : Nat :=
  size - (h.epilog + wordSize - h.growthBlock last)

/-- If nothing fits, the free last block is too small as well. -/
theorem Sound.span_lt (hs : h.Sound cs ls) (hb : BlockSize size) (hx : fit cs ls size = none)
    (he : EndsIn cs pre last) : h.epilog + wordSize - h.growthBlock last < size := by
  have hlarge := hb.large
  cases last with
  | none =>
    show h.epilog + wordSize - (h.epilog + wordSize) < size
    simp only [minBlock] at hlarge
    omega
  | some b =>
    have hlt := hs.complete.fit_eq_none hs.chain.tiles hx (b := b) (by simp [he.blocks])
      (he.free b rfl)
    have hend := he.last_end hs.chain
    show h.epilog + wordSize - b.1 < size
    omega

theorem Sound.acquire_of_fit_eq_none (hs : h.Sound cs ls) (hx : fit cs ls size = none)
    (he : EndsIn cs pre last) {result : Except Exhausted Nat} {h' : Heap}
    (hst : h.stretch limit (h.growthBlock last) size (last.map Prod.fst) = .ok (result, h')) :
    h.acquire limit size =
      .ok (result.map (.grown (h.growthBlock last) · last.isSome), h') := by
  have habs : (if last.isSome = true then some (h.growthBlock last) else none) =
      last.map Prod.fst := by
    cases last <;> rfl
  unfold acquire
  rw [hs.consistent.firstFit, hx, ok_bind]
  show (h.growthPoint >>= fun point => _) = _
  rw [hs.growthPoint he, ok_bind]
  show (h.stretch limit (h.growthBlock last) size
    (if last.isSome = true then some (h.growthBlock last) else none) >>= fun r => _) = _
  rw [habs, hst]
  rfl

/-- If nothing fits and the heap may grow, the block granted reaches its new end. -/
theorem Sound.acquire_grown (hs : h.Sound cs ls) (hb : BlockSize size)
    (hx : fit cs ls size = none) (he : EndsIn cs pre last)
    (hg : h.growthRefusal limit (h.growthFor last size) = none) :
    ∃ h', h.acquire limit size =
        .ok (.ok (.grown (h.growthBlock last) (h.growthFor last size) last.isSome), h') ∧
      h.Becomes cs h' (pre ++ [(h.growthBlock last, ⟨size, .allocated⟩)])
        (dropAny ls (last.map Prod.fst)) ∧
      h'.epilog = h.epilog + h.growthFor last size := by
  have hsep : Separated pre := (separated_append.mp (he.blocks ▸ hs.shape.separated)).1
  obtain ⟨h', hst, hbec, hep⟩ := hs.stretch (he.endRegion hs.chain) hb
    (Nat.le_of_lt (hs.span_lt hb hx he)) hsep hg
  exact ⟨h', hs.acquire_of_fit_eq_none hx he hst, hbec, hep⟩

/-- If nothing fits and the heap may not grow, nothing has changed. -/
theorem Sound.acquire_refused (hs : h.Sound cs ls) (hb : BlockSize size)
    (hx : fit cs ls size = none) (he : EndsIn cs pre last) {cause : Exhausted}
    (hg : h.growthRefusal limit (h.growthFor last size) = some cause) :
    h.acquire limit size = .ok (.error cause, h) :=
  hs.acquire_of_fit_eq_none hx he ((he.endRegion hs.chain).stretch_refused
    (Nat.le_of_lt (hs.span_lt hb hx he)) hg)

end Heap

end SegFit
