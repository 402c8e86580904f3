/-
  The invariant of all runs.  Whatever the settings and the requests, as long as clients pass
  pointers of live allocations only: the heap passes its check after every step, refused or
  not, the epilog ends it, the word before the first block is zero, and no request faults.
-/
import SegFit.Proofs.Runs

namespace SegFit

namespace Allocator

open Heap

/-- In every state that clients can reach, the heap is as the layout says, and the next request
is refused or granted. -/
theorem Reachable.heap_invariant {settings : Settings} {a : Allocator} {live : List Nat}
    (h : Reachable settings a live) :
    a.heap.check = .ok (.ok ()) ∧
    a.heap.epilog + epilogBytes = a.heap.size ∧
    a.heap.mem.word prologEnd = 0 ∧
    (∃ cs lists, a.heap.Shape cs lists ∧
      (∀ b ∈ cs, a.heap.mem.word (b.1 - wordSize) = b.2.word ∧
        a.heap.mem.word (b.1 + b.2.size - overhead) = b.2.word) ∧
      ∀ p, p ∈ live ↔ ∃ b ∈ cs, b.2.status = .allocated ∧ b.1 = p) ∧
    ∀ r : Request, (∀ ptr, r.pointer = some ptr → ptr ∈ live) → r.Fits a →
      ∃ reply, a.perform r = .ok reply := by
  obtain ⟨cs, ls, ht, he⟩ := h.tracks
  have hs := ht.sound
  refine ⟨hs.check, hs.span, he.prologFooter, ⟨cs, ls, hs.shape, fun b hb => ?_, ht.live⟩,
    fun r legal hfits => ?_⟩
  · exact ⟨he.headers b hb, (hs.chain.marked hb).footer⟩
  · rcases perform_spec ht legal hfits with ⟨e, a', hrun, -⟩ | ⟨answer, _, a', _, _, hrun, -⟩
    · exact ⟨_, hrun⟩
    · exact ⟨_, hrun⟩

/-- Two allocations between two free blocks, of which the first one is merged from two; the next
request releases the allocation behind it. -/
theorem heap_invariant_session :
    ∃ a, session {} cutUp = some (a, [192, 176]) ∧
      a.blocks = .ok [⟨112, 64, .free, some (16, 256)⟩, ⟨176, 16, .allocated, none⟩,
        ⟨192, 16, .allocated, none⟩, ⟨208, 32, .free, some (8, 248)⟩] ∧
      a.heap.check = .ok (.ok ()) ∧ a.heap.epilog + epilogBytes = a.heap.size ∧
      a.heap.mem.word prologEnd = 0 ∧
      (∃ cs lists, a.heap.Shape cs lists ∧
        ∀ p, p ∈ [192, 176] ↔ ∃ b ∈ cs, b.2.status = .allocated ∧ b.1 = p) ∧
      ∃ reply, a.perform (.release 176) = .ok reply := by
  obtain ⟨a, hrun, hblocks, -⟩ := session_cutUp
  obtain ⟨hcheck, hspan, hfooter, ⟨cs, lists, hshape, -, hlive⟩, hnext⟩ :=
    Reachable.heap_invariant (.of_session hrun)
  refine ⟨a, hrun, hblocks, hcheck, hspan, hfooter, ⟨cs, lists, hshape, hlive⟩,
    hnext (.release 176) (fun ptr hp => ?_) trivial⟩
  cases hp
  decide

end Allocator

end SegFit
