/-
  The check as an invariant.  If a heap passes its check, and the counters are the figures on it,
  this stays so with every operation on what is reported as allocated; with all of its arithmetic
  guarded the operation ends as it does without (`operation_accepted`).  One word matters that the
  check does not look at, the one before the first block.  A client whose pointers are not
  validated can leave there what reads as the tag of a free block, in a heap that passes its check;
  the release of the first block then takes in the last prolog node (`not_operation_checked`).
-/
import SegFit.Proofs.Exposure
import SegFit.Proofs.Figures
import SegFit.Proofs.Foremost

namespace SegFit.Allocator

open Heap

variable {a : Allocator} {cs : List TaggedBlock} {ls : Nat → List Nat}

/-! ## Counters -/

/-- The counters agree with the figures on the heap. -/
def Counted (a : Allocator) : Prop :=
  a.occupancy.map (fun s => (s.allocatedBlocks, s.allocatedBytes)) =
    .ok (a.liveBlocks, a.liveBytes)

instance (a : Allocator) : Decidable a.Counted :=
  inferInstanceAs (Decidable (_ = _))

/-- On a sound heap they count its allocated blocks. -/
theorem counted_iff (hs : a.heap.Sound cs ls) : a.Counted ↔ a.Tally cs := by
  rw [Counted, occupancy_eq hs]
  constructor
  · intro h
    obtain ⟨hblocks, hbytes⟩ := Prod.mk.inj (Except.ok.inj h)
    exact ⟨hblocks.symm, hbytes.symm⟩
  · intro h
    exact congrArg Except.ok (Prod.ext h.blocks.symm h.bytes.symm)

/-! ## Operations -/

/-- An operation on an accepted heap with counters that agree ends in a reply, with all of its
arithmetic guarded as it does without; the heap is accepted again, and the counters agree. -/
theorem operation_accepted (ha : a.heap.Accepted) (hc : a.Counted) {r : Request}
    (hop : r.Operates) (hptr : ∀ ptr, r.pointer = some ptr → a.Reports ptr) :
    ∃ result a', a.guardedPerform r = .ok (result, a') ∧ a.perform r = .ok (result, a') ∧
      a'.heap.Accepted ∧ a'.Counted := by
  obtain ⟨cs, ls, hs⟩ := accepted_iff.mp ha
  have ht := tracks_allocated hs
  obtain ⟨result, a', cs', ls', hrun, hguarded, ht', hc', -, -⟩ :=
    request_ends ht ((counted_iff hs).mp hc)
      (fun ptr hp => (ht.live ptr).mpr ((hptr ptr hp).exists_block hs)) (hop.fits a)
  exact ⟨result, a', hguarded, hrun, accepted_iff.mpr ⟨cs', ls', ht'.sound⟩,
    (counted_iff ht'.sound).mpr hc'⟩

/-- An allocation between two free blocks, and before the first block the tag of an allocated
one. -/
def taggedHoles : Allocator :=
  ⟨{ twoHoles with mem := twoHoles.mem.setWord prologEnd 17 }, twoHoles.size, {}, .empty .info, 1,
    minBlock⟩

/-- The release merges all three. -/
theorem operation_accepted_holes :
    taggedHoles.heap.Accepted ∧ taggedHoles.Counted ∧ taggedHoles.Reports 136 ∧
      ∃ result a', taggedHoles.guardedPerform (.release 136) = .ok (result, a') ∧
        taggedHoles.perform (.release 136) = .ok (result, a') ∧ a'.heap.Accepted ∧
        a'.Counted := by
  have haccepted : taggedHoles.heap.Accepted :=
    ⟨by decide +kernel, by decide +kernel, by decide +kernel, by decide +kernel⟩
  have hcounted : taggedHoles.Counted := by decide +kernel
  have hblocks : taggedHoles.blocks = .ok [⟨112, 24, .free, some (152, 168)⟩,
      ⟨136, 16, .allocated, none⟩, ⟨152, 16, .free, some (0, 112)⟩] := by decide +kernel
  have hreports : taggedHoles.Reports 136 := ⟨_, hblocks, ⟨136, 16, .allocated, none⟩, by simp⟩
  refine ⟨haccepted, hcounted, hreports, operation_accepted haccepted hcounted trivial ?_⟩
  intro ptr hp
  obtain rfl : 136 = ptr := Option.some.inj hp
  exact hreports

/-! ## Without a condition on the word before the first block -/

/-- A payload that reads as a block of 16 bytes from its third word on, with a free one of no bytes
behind it.  To take that off its list is to write 16, its second link, to the word before the first
block. -/
def forged : ByteArray :=
  (ofWords [0, 16, 0, 0, 0, 2, 100, 16]).bytes

/-- Releases the block in this payload, and asks for one of its size. -/
def forgery : List Request :=
  [.allocate 40, .write 112 0 forged, .release 120, .allocate 8]

/-- The heap passes its check after it, with counters that agree; the release of its one block
leaves one that does not. -/
theorem exposure_forgery :
    ∃ a, exposure {} forgery = some (a, [120, 112]) ∧ a.heap.check = .ok (.ok ()) ∧
      a.heap.epilog + epilogBytes = a.heap.size ∧ a.heap.size ≤ maxWord ∧ a.Counted ∧
      a.blocks = .ok [⟨112, 48, .allocated, none⟩] ∧
      ∀ reply, a.perform (.release 112) = .ok reply → reply.2.heap.check ≠ .ok (.ok ()) := by
  have hall : (exposure {} forgery).map (fun s => decide (s.2 = [120, 112] ∧
      s.1.heap.check = .ok (.ok ()) ∧ s.1.heap.epilog + epilogBytes = s.1.heap.size ∧
      s.1.heap.size ≤ maxWord ∧ s.1.Counted ∧ s.1.blocks = .ok [⟨112, 48, .allocated, none⟩] ∧
      (s.1.perform (.release 112)).toOption.map
        (fun reply => decide (reply.2.heap.check = .ok (.ok ()))) = some false)) = some true := by
    decide +kernel
  obtain ⟨⟨a, live⟩, hrun, hfacts⟩ := Option.map_eq_some_iff.mp hall
  obtain ⟨rfl, hcheck, hspan, hsmall, hcounted, hblocks, hbroken⟩ := of_decide_eq_true hfacts
  refine ⟨a, hrun, hcheck, hspan, hsmall, hcounted, hblocks, fun reply hreply => ?_⟩
  rw [hreply] at hbroken
  exact of_decide_eq_false (Option.some.inj hbroken)

/-- Without such a condition the check is no invariant. -/
theorem not_operation_checked :
    ¬ ∀ (a : Allocator) (r : Request), a.heap.check = .ok (.ok ()) →
      a.heap.epilog + epilogBytes = a.heap.size → a.heap.size ≤ maxWord → a.Counted →
      r.Operates → (∀ ptr, r.pointer = some ptr → a.Reports ptr) →
      ∃ result a', a.perform r = .ok (result, a') ∧ a'.heap.check = .ok (.ok ()) := by
  intro hall
  obtain ⟨a, -, hcheck, hspan, hsmall, hcounted, hblocks, hbroken⟩ := exposure_forgery
  obtain ⟨result, a', hrun, hcheck'⟩ := hall a (.release 112) hcheck hspan hsmall hcounted trivial
    fun ptr hp => ⟨_, hblocks, _, List.mem_singleton_self _, Option.some.inj hp, rfl⟩
  exact hbroken _ hrun hcheck'

end SegFit.Allocator
