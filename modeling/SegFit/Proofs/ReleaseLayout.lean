/-
  What a release leaves, exactly.  The block and those of its two neighbours that are free give
  way to one free block that covers them all.  It is put at the front of the list of its bucket;
  the neighbours leave theirs, and every list is otherwise what it was, in the same order.  No
  other block is touched, the heap keeps its size, and the counters lose just this block.

  The four cases of the merge are one statement: a neighbour that is not free is `none`.

  Proved:
  * `releasedLists_eq`: the lists after a release, as filters of those before.
  * `Sound.tagByte_eq`: a block that two heaps share has the same tags in both, to the byte.
  * `Reachable.release_exact`: all of it, for every live allocation of every state that clients
    can reach.
-/
import SegFit.Proofs.ReleaseOrder

namespace SegFit

/-- A tiling is split by the offset of a block in one way. -/
theorem Tiles.split_unique {start stop : Nat} {front front' back back' : List TaggedBlock}
    {b b' : TaggedBlock} (ht : Tiles start (front ++ b :: back) stop)
    (heq : front ++ b :: back = front' ++ b' :: back') (hb : b.1 = b'.1) :
    front = front' ∧ b = b' ∧ back = back' := by
  have hb' : b' ∈ front ++ b :: back := by simp [heq]
  obtain rfl := ht.eq_of_offset (by simp) hb' hb
  have hn := List.nodup_append.mp ht.nodup
  have hfront : b ∉ front := fun hm => hn.2.2 b hm b List.mem_cons_self rfl
  have hback : b ∉ back := (List.nodup_cons.mp hn.2.1).1
  exact (List.append_cons_inj_of_notMem hfront hback).mp heq

namespace Heap

variable {h h' : Heap} {cs cs' : List TaggedBlock} {ls ls' : Nat → List Nat}

/-! ## Lists -/

theorem dropAny_eq_filter {k : Nat} (hn : (ls k).Nodup) (x : Option Nat) :
    dropAny ls x k = (ls k).filter fun y => some y ≠ x := by
  cases x with
  | none => simp [dropAny]
  | some x =>
    show (ls k).erase x = _
    rw [hn.erase_eq_filter]
    refine List.filter_congr fun y _ => Bool.eq_iff_iff.mpr ?_
    simp

/-- After a release each list is what it was without the neighbours taken in, and one of them has
the merged block before that. -/
theorem releasedLists_eq {k : Nat} (hn : (ls k).Nodup) (prev : Option TaggedBlock) (b : TaggedBlock)
    (next : Option TaggedBlock) :
    releasedLists ls prev b next k =
      (if k = Bucket.ofSize (merged prev b next).2.size then [(merged prev b next).1] else []) ++
        (ls k).filter fun y => y ∉ (prev.toList ++ next.toList).map Prod.fst := by
  have hdrop : dropAny (dropAny ls (prev.map Prod.fst)) (next.map Prod.fst) k =
      (ls k).filter fun y => y ∉ (prev.toList ++ next.toList).map Prod.fst := by
    have hn' : (dropAny ls (prev.map Prod.fst) k).Nodup := by
      rw [dropAny_eq_filter hn]
      exact hn.filter _
    rw [dropAny_eq_filter hn', dropAny_eq_filter hn, List.filter_filter]
    refine List.filter_congr fun y _ => Bool.eq_iff_iff.mpr ?_
    cases prev <;> cases next <;> simp [and_comm]
  unfold releasedLists pushNode
  rw [hdrop]
  split <;> rfl

/-! ## Tags -/

/-- A block that two heaps have in common has the same header and footer in both. -/
theorem Sound.tagByte_eq (hs : h.Sound cs ls) (hs' : h'.Sound cs' ls') (he : h.Exact cs)
    (he' : h'.Exact cs') {b : TaggedBlock} (hb : b ∈ cs) (hb' : b ∈ cs') {j : Nat}
    (hj : Memory.TagByte b j) : h'.mem.byte j = h.mem.byte j := by
  rcases hj with hj | hj
  · exact Memory.byte_eq_of_word ((he'.headers b hb').trans (he.headers b hb).symm) hj
  · have hfooter := (hs.chain.marked hb).footer
    have hfooter' := (hs'.chain.marked hb').footer
    exact Memory.byte_eq_of_word (hfooter'.trans hfooter.symm) hj

end Heap

namespace Allocator

open Heap

variable {a : Allocator} {cs : List TaggedBlock} {ls : Nat → List Nat} {settings : Settings}
  {live : List Nat} {p : Nat}

/-- The blocks that a walk over the heap finds are `cs`. -/
def Shows (a : Allocator) (cs : List TaggedBlock) : Prop :=
  a.blocks.map (·.map Block.tagged) = .ok cs

instance (a : Allocator) (cs : List TaggedBlock) : Decidable (a.Shows cs) :=
  inferInstanceAs (Decidable (_ = _))

theorem Shows.unique {cs' : List TaggedBlock} (h : a.Shows cs) (h' : a.Shows cs') : cs = cs' :=
  Except.ok.inj (h.symm.trans h')

theorem shows_of_sound (hs : a.heap.Sound cs ls) : a.Shows cs := by
  unfold Shows blocks
  rw [hs.consistent.blocks]
  exact congrArg _ (map_tagged_views a.heap.mem cs)

/-! ## A block that was cut -/

/-- A block that was made smaller, with what it gave up behind it; both are of one bucket. -/
theorem exists_shrunk :
    ∃ a, session {} [.allocate 40, .resize (some 112) 8] = some (a, [112]) ∧
      a.Shows [(112, ⟨16, .allocated⟩), (128, ⟨32, .free⟩)] ∧ a.heap.nodes 1 = .ok [128] ∧
      a.heap.epilog = 156 ∧ a.heap.size = 264 := by
  have hall : (session {} [.allocate 40, .resize (some 112) 8]).map (fun s =>
      decide (s.2 = [112] ∧ s.1.Shows [(112, ⟨16, .allocated⟩), (128, ⟨32, .free⟩)] ∧
        s.1.heap.nodes 1 = .ok [128] ∧ s.1.heap.epilog = 156 ∧ s.1.heap.size = 264)) =
      some true := by
    decide +kernel
  obtain ⟨⟨a, live⟩, hrun, hfacts⟩ := Option.map_eq_some_iff.mp hall
  obtain ⟨rfl, hfacts⟩ := of_decide_eq_true hfacts
  exact ⟨a, hrun, hfacts⟩

/-- Its place among the blocks. -/
theorem before_shrunk {pre post : List TaggedBlock} {next : Option TaggedBlock} {size : Nat}
    (h : Before [(112, ⟨16, .allocated⟩), (128, ⟨32, .free⟩)] pre (112, ⟨size, .allocated⟩) next
      post) : pre = [] ∧ size = 16 ∧ next = some (128, ⟨32, .free⟩) ∧ post = [] := by
  have htiles : Tiles 112 ([] ++ (112, ⟨16, .allocated⟩) :: [(128, ⟨32, .free⟩)]) 160 :=
    ⟨rfl, by decide, rfl, by decide, rfl⟩
  obtain ⟨hpre, hb, hback⟩ := htiles.split_unique h.blocks rfl
  have hsize : 16 = size := congrArg (fun b => b.2.size) hb
  refine ⟨hpre.symm, hsize.symm, ?_⟩
  cases next with
  | none =>
    have hpost : [(128, ⟨32, .free⟩)] = post := hback
    exact absurd rfl (h.after (128, ⟨32, .free⟩) (hpost ▸ rfl))
  | some c =>
    obtain ⟨rfl, rfl⟩ := List.cons.inj hback
    exact ⟨rfl, rfl⟩

/-! ## Releases -/

/-- In every state that clients can reach, releasing a live allocation leaves the blocks that there
were, but for its own and those neighbours of it that were free: where these were, there is one
free block.  It comes first on the list of its bucket, and all lists are otherwise what they were
without the neighbours. -/
theorem Reachable.release_exact (h : Reachable settings a live) (hp : p ∈ live) :
    ∃ cs pre prev size next post free a',
      a.Shows cs ∧ Around cs pre prev (p, ⟨size, .allocated⟩) next post ∧
      a.release p = .ok (.ok (), a') ∧
      a'.Shows (pre ++ free :: post) ∧ free.2.isFree ∧
      Tiles free.1 (prev.toList ++ (p, ⟨size, .allocated⟩) :: next.toList)
        (free.1 + free.2.size) ∧
      (∀ k < Bucket.count, ∃ ns, a.heap.nodes k = .ok ns ∧
        a'.heap.nodes k = .ok ((if k = Bucket.ofSize free.2.size then [free.1] else []) ++
          ns.filter fun x => x ∉ (prev.toList ++ next.toList).map Prod.fst)) ∧
      a'.heap.size = a.heap.size ∧
      (∀ b ∈ pre ++ post, ∀ j, Memory.TagByte b j → a'.heap.mem.byte j = a.heap.mem.byte j) ∧
      a'.liveBlocks + 1 = a.liveBlocks ∧ a'.liveBytes + size = a.liveBytes := by
  obtain ⟨cs, ls, ht, he, hc⟩ := h.audited
  have hs := ht.sound
  obtain ⟨⟨p, size, status⟩, hb, rfl, rfl⟩ := (ht.live p).mp hp
  obtain ⟨pre, prev, next, post, ha⟩ := exists_around hs.shape.separated hb
  obtain ⟨a', hrun, hbec, hepilog, hblocks, hbytes⟩ := release_merges hs ha rfl
  have hs' := hbec.sound
  obtain ⟨hone, hle⟩ := hc.of_mem hb rfl
  have htiles : Tiles (merged prev (p, ⟨size, .allocated⟩) next).1
      (prev.toList ++ (p, ⟨size, .allocated⟩) :: next.toList)
      ((merged prev (p, ⟨size, .allocated⟩) next).1 +
        (merged prev (p, ⟨size, .allocated⟩) next).2.size) := by
    obtain ⟨start, stop, -, hmid, -⟩ := tiles_stretches.mp (ha.blocks ▸ hs.chain.tiles)
    obtain ⟨hstart, -, hstop⟩ := tiles_merged hmid
    rwa [hstart, hstop]
  refine ⟨cs, pre, prev, size, next, post, merged prev (p, ⟨size, .allocated⟩) next, a',
    shows_of_sound hs, ha, hrun, ?_, rfl, htiles, fun k hk => ?_, ?_, fun b hb j hj => ?_, ?_, ?_⟩
  · simpa using shows_of_sound hs'
  · refine ⟨ls k, hs.consistent.nodes hk, ?_⟩
    rw [hs'.consistent.nodes hk, releasedLists_eq (hs.shape.nodup hk)]
  · exact hs.size_eq (n := 0) hs' hepilog
  · have hold : b ∈ cs := by
      rcases List.mem_append.mp hb with hb | hb <;> simp [ha.blocks, hb]
    have hnew : b ∈ pre ++ [merged prev (p, ⟨size, .allocated⟩) next] ++ post := by
      rcases List.mem_append.mp hb with hb | hb <;> simp [hb]
    exact hs.tagByte_eq hs' he (hbec.exact he) hold hnew hj
  · omega
  · simp only at hle hbytes
    omega

theorem release_exact_shrunk :
    ∃ a a', session {} [.allocate 40, .resize (some 112) 8] = some (a, [112]) ∧
      a.Shows [(112, ⟨16, .allocated⟩), (128, ⟨32, .free⟩)] ∧
      a.release 112 = .ok (.ok (), a') ∧ a'.Shows [(112, ⟨48, .free⟩)] ∧
      a.heap.nodes 1 = .ok [128] ∧ a'.heap.nodes 1 = .ok [112] ∧
      a'.heap.size = a.heap.size ∧ a'.liveBlocks + 1 = a.liveBlocks ∧
      a'.liveBytes + 16 = a.liveBytes := by
  obtain ⟨a, hrun, hshows, hnodes, -, -⟩ := exists_shrunk
  obtain ⟨cs, pre, prev, size, next, post, free, a', hcs, ha, hrelease, hshows', hfree, htiles,
    hlists, hsize, -, hblocks, hbytes⟩ :=
    Reachable.release_exact (p := 112) (.of_session hrun) (by decide)
  obtain rfl := hcs.unique hshows
  obtain ⟨hpre, rfl, rfl, rfl⟩ := before_shrunk ha.before_next
  obtain ⟨rfl, hprev⟩ := List.append_eq_nil_iff.mp hpre
  obtain rfl := Option.toList_eq_nil_iff.mp hprev
  obtain ⟨start, len, status⟩ := free
  obtain ⟨rfl, -, -, -, hstop⟩ := htiles
  obtain rfl : status = .free := Tag.isFree_iff.mp hfree
  obtain rfl : 48 = len := Nat.add_left_cancel (n := 112) hstop
  obtain ⟨ns, hns, hns'⟩ := hlists 1 (by decide)
  obtain rfl := Except.ok.inj (hns.symm.trans hnodes)
  exact ⟨a, a', hrun, hshows, hrelease, hshows', hnodes, hns', hsize, hblocks, hbytes⟩

end Allocator

end SegFit
