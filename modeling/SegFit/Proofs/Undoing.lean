/-
  Allocation undoes release.  A block given back between blocks in use is put at the front of the
  list of its bucket, as it is.  A request for a block of its size searches this list first and
  finds it there, whatever else is free, so it gets the block back, and the heap has the blocks
  and the lists that it had.  These determine its structure down to the byte (`structByte_eq`), and
  what was no structure on the way was not written (`Becomes.byte_back`): only the links of the
  block itself went into its first eight bytes (`Reachable.allocate_undoes_release`).

  A request for no bytes is not a request for a block, though the size of a block for no bytes is
  that of the smallest (`not_allocate_undoes_release_zero`).
-/
import SegFit.Proofs.Granting
import SegFit.Proofs.ListOperations
import SegFit.Proofs.ResizeLayout

namespace SegFit

namespace Heap

variable {h : Heap} {cs pre post : List TaggedBlock} {ls : Nat → List Nat} {b : TaggedBlock}
  {x size : Nat}

/-! ## Blocks between blocks in use -/

/-- First fit takes the head of the list where its search begins, if it is large enough. -/
theorem fit_of_head (hx : (ls (Bucket.ofSize size)).head? = some x) (hle : size ≤ sizeAt cs x) :
    fit cs ls size = some x := by
  obtain ⟨rest, hrest⟩ := List.head?_eq_some_iff.mp hx
  have hfirst : (ls (Bucket.ofSize size)).find? (fun y => size ≤ sizeAt cs y) = some x := by
    rw [hrest]
    exact List.find?_cons_of_pos (by simpa using hle)
  have hlt : Bucket.ofSize size < (List.range Bucket.count).length := by
    simpa using Bucket.ofSize_lt size
  rw [fit, List.drop_eq_getElem_cons hlt, List.getElem_range, List.findSome?_cons, hfirst]

/-- A block without free neighbours becomes free as it is. -/
theorem merged_alone (b : TaggedBlock) : merged none b none = (b.1, ⟨b.2.size, .free⟩) := by
  simp [merged]

theorem releasedLists_alone (ls : Nat → List Nat) (b : TaggedBlock) :
    releasedLists ls none b none = pushNode ls (Bucket.ofSize b.2.size) b.1 := by
  rw [releasedLists, merged_alone]
  rfl

/-- Freeing a block adds at most its node to the structure. -/
theorem StructByte.of_freed {j : Nat}
    (hj : h.StructByte (pre ++ [(b.1, ⟨b.2.size, .free⟩)] ++ post) j) :
    h.StructByte (pre ++ b :: post) j ∨ InNode b.1 j := by
  rcases hj with hj | hj | ⟨c, hc, hj⟩
  · exact .inl (.inl hj)
  · exact .inl (.inr (.inl hj))
  · simp only [List.mem_append, List.mem_singleton] at hc
    rcases hc with (hc | rfl) | hc
    · exact .inl (.inr (.inr ⟨c, by simp [hc], hj⟩))
    · rcases hj with hj | ⟨-, hj⟩
      · exact .inl (.inr (.inr ⟨b, by simp, .inl hj⟩))
      · exact .inr hj
    · exact .inl (.inr (.inr ⟨c, by simp [hc], hj⟩))

/-- In a heap where a block is free at the front of its list, a request for its size gets this
block, and the list goes on with what was behind it. -/
theorem Sound.acquire_front (hs : h.Sound (pre ++ [(x, ⟨size, .free⟩)] ++ post)
      (pushNode ls (Bucket.ofSize size) x))
    (hb : BlockSize size) (hnot : ∀ k < Bucket.count, x ∉ ls k) (limit : Nat) :
    ∃ h', h.acquire limit size = .ok (.ok (.reused x size size), h') ∧
      h.Becomes (pre ++ [(x, ⟨size, .free⟩)] ++ post) h' (pre ++ (x, ⟨size, .allocated⟩) :: post)
        ls ∧ h'.epilog = h.epilog := by
  have hmem : (x, ⟨size, .free⟩) ∈ pre ++ [(x, ⟨size, .free⟩)] ++ post := by simp
  have hfit : fit (pre ++ [(x, ⟨size, .free⟩)] ++ post) (pushNode ls (Bucket.ofSize size) x) size =
      some x :=
    fit_of_head (by rw [pushNode, if_pos rfl]; rfl)
      (Nat.le_of_eq (sizeAt_of_mem hs.chain.tiles hmem).symm)
  -- Nothing is left of the block.
  have hrest : ¬ minBlock ≤ size - size := by
    rw [Nat.sub_self]
    decide
  have hplaced : placed size size = size := if_neg hrest
  have hremainder : remainder x size size = none := if_neg hrest
  have hblocks (s : Status) :
      pre ++ [(x, ⟨size, s⟩)] ++ post = pre ++ (x, ⟨size, s⟩) :: post :=
    List.append_assoc ..
  obtain ⟨h', hrun, hbec, hepilog⟩ := hs.acquire_reused limit hb hfit (hblocks .free)
  rw [carved_of_no_remainder hrest, hremainder, hblocks .allocated] at hbec
  rw [hplaced] at hrun
  refine ⟨h', hrun, ⟨hbec.sound.congr_lists fun k hk => ?_, hbec.frame, hbec.exact, hbec.odd⟩,
    hepilog⟩
  exact (dropNode_pushNode hnot hk).symm

/-- In a heap that has its old blocks and lists again, every byte is what it was that was not
structure only in between. -/
theorem Becomes.byte_back {h₁ h₂ : Heap} {cs₁ : List TaggedBlock} {ls₁ : Nat → List Nat}
    (hb₁ : h.Becomes cs h₁ cs₁ ls₁) (hs : h.Sound cs ls) (he : h.Exact cs)
    (hb₂ : h₁.Becomes cs₁ h₂ cs ls) {j : Nat} (hj : h₁.StructByte cs₁ j → h.StructByte cs j) :
    h₂.mem.byte j = h.mem.byte j := by
  have hs₂ := hb₂.sound
  by_cases hstruct : h.StructByte cs j
  · exact (structByte_eq hs hs₂ he (hb₂.exact (hb₁.exact he)) hstruct).symm
  · have hbetween : ¬ h₁.StructByte cs₁ j := fun hj' => hstruct (hj hj')
    have hend : ¬ h₂.StructByte cs j := by
      rwa [StructByte, ← (hs.extent_eq hs₂).1]
    exact (hb₂.frame j hbetween hend).trans (hb₁.frame j hstruct hbetween)

end Heap

namespace Allocator

open Heap

variable {a : Allocator} {pre post : List TaggedBlock} {tag : Tag} {settings : Settings}
  {live : List Nat} {n p : Nat}

/-! ## Release and request -/

/-- In every state that clients can reach, releasing a live allocation without free neighbours and
then requesting a block of its size gives the allocation back.  The heap is what it was, but for
the first eight bytes of the payload: every other byte, so also all tags and links, the order of
all lists, its size and its end, and so are the counters. -/
theorem Reachable.allocate_undoes_release (h : Reachable settings a live) (hp : p ∈ live)
    (hcs : a.Shows (pre ++ (p, tag) :: post)) (hbefore : ∀ c ∈ pre.getLast?, ¬ c.2.isFree)
    (hafter : ∀ c ∈ post.head?, ¬ c.2.isFree) (hn : 0 < n)
    (hsize : blockSizeFor n = some tag.size) :
    ∃ a₁ a₂, a.release p = .ok (.ok (), a₁) ∧ a₁.allocate n = .ok (.ok (some p), a₂) ∧
      (∀ j, ¬ InNode p j → a₂.heap.mem.byte j = a.heap.mem.byte j) ∧
      a₂.heap.size = a.heap.size ∧ a₂.heap.epilog = a.heap.epilog ∧
      a₂.Shows (pre ++ (p, tag) :: post) ∧
      (∀ k < Bucket.count, a₂.heap.nodes k = a.heap.nodes k) ∧
      a₂.liveBlocks = a.liveBlocks ∧ a₂.liveBytes = a.liveBytes := by
  obtain ⟨cs, ls, ht, he, hc⟩ := h.audited
  have hs := ht.sound
  obtain rfl := (shows_of_sound hs).unique hcs
  have hmem : (p, tag) ∈ pre ++ (p, tag) :: post := by simp
  obtain ⟨b, hb, hused, hoffset⟩ := (ht.live p).mp hp
  obtain rfl := hs.chain.tiles.eq_of_offset hb hmem hoffset
  obtain ⟨size, status⟩ := tag
  obtain rfl : status = .allocated := hused
  have ha : Around (pre ++ (p, ⟨size, .allocated⟩) :: post) pre none (p, ⟨size, .allocated⟩) none
      post :=
    ⟨by simp, by simp, by simp, hbefore, hafter⟩
  -- The release puts the block, as it is, at the front of its list.
  obtain ⟨a₁, hrelease, hbec₁, hepilog₁, -⟩ := release_merges hs ha rfl
  rw [merged_alone, releasedLists_alone] at hbec₁
  -- The request takes it from there.
  obtain ⟨h₂, hacquire, hbec₂, hepilog₂⟩ := hbec₁.sound.acquire_front (blockSizeFor_spec hsize).1
    (fun k hk => hs.consistent.not_mem_of_allocated hmem rfl hk) a₁.limit
  obtain ⟨a₂, hserve, rfl⟩ := serve_of_acquire (Nat.ne_of_gt hn) hsize hacquire "malloc"
  have hallocate : a₁.allocate n = .ok (.ok (some p), a₂) := allocate_of_serve hbec₁.sound hserve
  have hs₂ := hbec₂.sound
  have hepilog : a₂.heap.epilog = a.heap.epilog := hepilog₂.trans hepilog₁
  have hc₂ := ((h.released hp hrelease).allocated hallocate).tally_of_shows (shows_of_sound hs₂)
  refine ⟨a₁, a₂, hrelease, hallocate, fun j hj => ?_, hs.size_eq (n := 0) hs₂ hepilog, hepilog,
    shows_of_sound hs₂, fun k hk => ?_, hc₂.blocks.trans hc.blocks.symm,
    hc₂.bytes.trans hc.bytes.symm⟩
  · refine hbec₁.byte_back hs he hbec₂ fun hj' => ?_
    rw [StructByte, hepilog₁] at hj'
    exact (StructByte.of_freed (b := (p, ⟨size, .allocated⟩)) hj').resolve_right hj
  · rw [hs₂.consistent.nodes hk, hs.consistent.nodes hk]

/-- A block of 48 bytes cut twice: two allocations of 16 bytes, and as much that is free. -/
theorem exists_cut_twice :
    ∃ a, session {} [.allocate 40, .resize (some 112) 8, .allocate 8] = some (a, [128, 112]) ∧
      a.Shows ([] ++ (112, ⟨16, .allocated⟩) :: [(128, ⟨16, .allocated⟩), (144, ⟨16, .free⟩)]) ∧
      a.heap.nodes 0 = .ok [144] := by
  have hall : (session {} [.allocate 40, .resize (some 112) 8, .allocate 8]).map (fun s =>
      decide (s.2 = [128, 112] ∧ s.1.Shows ([] ++ (112, ⟨16, .allocated⟩) ::
        [(128, ⟨16, .allocated⟩), (144, ⟨16, .free⟩)]) ∧ s.1.heap.nodes 0 = .ok [144])) =
      some true := by
    decide +kernel
  obtain ⟨⟨a, live⟩, hrun, hfacts⟩ := Option.map_eq_some_iff.mp hall
  obtain ⟨rfl, hfacts⟩ := of_decide_eq_true hfacts
  exact ⟨a, hrun, hfacts⟩

/-- The first of the two given back and asked for again, with another block of its size free. -/
theorem allocate_undoes_release_cut :
    ∃ a a₁ a₂, session {} [.allocate 40, .resize (some 112) 8, .allocate 8] =
        some (a, [128, 112]) ∧
      a.Shows ([] ++ (112, ⟨16, .allocated⟩) :: [(128, ⟨16, .allocated⟩), (144, ⟨16, .free⟩)]) ∧
      a.release 112 = .ok (.ok (), a₁) ∧ a₁.allocate 8 = .ok (.ok (some 112), a₂) ∧
      (∀ j, ¬ InNode 112 j → a₂.heap.mem.byte j = a.heap.mem.byte j) ∧
      a₂.heap.nodes 0 = .ok [144] ∧ a₂.liveBytes = a.liveBytes := by
  obtain ⟨a, hrun, hshows, hnodes⟩ := exists_cut_twice
  obtain ⟨a₁, a₂, hrelease, hallocate, hbytes, -, -, -, hlists, -, hlive⟩ :=
    Reachable.allocate_undoes_release (n := 8) (.of_session hrun) (by decide) hshows (by decide)
      (by decide) (by decide) (by decide)
  exact ⟨a, a₁, a₂, hrun, hshows, hrelease, hallocate, hbytes,
    (hlists 0 (by decide)).trans hnodes, hlive⟩

/-! ## No bytes -/

/-- Who asks for no bytes gets no block. -/
theorem allocate_zero {a' : Allocator} {answer : Option Nat}
    (h : a.allocate 0 = .ok (.ok answer, a')) : answer = none := by
  have hserve : a.serve "malloc" 0 = .ok (.ok answer, a') := settle_eq_ok h
  cases hserve
  rfl

/-- The size of a block for no bytes is that of the smallest, but a released block of this size is
not what a request for no bytes gets. -/
theorem not_allocate_undoes_release_zero :
    ¬ ∀ (settings : Settings) (a : Allocator) (live : List Nat) (p n : Nat) (tag : Tag)
      (pre post : List TaggedBlock), Reachable settings a live → p ∈ live →
      a.Shows (pre ++ (p, tag) :: post) → (∀ c ∈ pre.getLast?, ¬ c.2.isFree) →
      (∀ c ∈ post.head?, ¬ c.2.isFree) → blockSizeFor n = some tag.size →
      ∃ a₁ a₂, a.release p = .ok (.ok (), a₁) ∧ a₁.allocate n = .ok (.ok (some p), a₂) := by
  intro hall
  obtain ⟨a, hrun, hshows, -⟩ := exists_cut_twice
  obtain ⟨_, _, -, hallocate⟩ := hall {} a _ 112 0 _ _ _ (.of_session hrun) (by decide) hshows
    (by decide) (by decide) (by decide)
  cases allocate_zero hallocate

end Allocator

end SegFit
