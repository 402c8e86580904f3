/-
  The counters.  They are the number of the allocated blocks and the sum of their sizes
  (`Tally`).  A step that gives up one block and adds another changes both by just that
  (`Tally.of_swaps`), so no counter is ever asked for less than it has.
-/
import Mathlib.Algebra.GroupWithZero.Nat
import Mathlib.Algebra.Order.BigOperators.Group.List
import Mathlib.Algebra.Order.Group.Nat
import SegFit.Allocator.Basic
import SegFit.Proofs.LiveBlocks

namespace SegFit

open Heap

variable {cs cs' : List TaggedBlock} {b : TaggedBlock}

/-- The allocated blocks of `cs`. -/
def allocations (cs : List TaggedBlock) : List TaggedBlock :=
  cs.filter fun b => b.2.status = .allocated

/-- The bytes of the blocks `cs`. -/
def bytesOf (cs : List TaggedBlock) : Nat :=
  (cs.map fun b => b.2.size).sum

theorem mem_allocations : b ∈ allocations cs ↔ b ∈ cs ∧ b.2.status = .allocated := by
  simp [allocations]

theorem bytesOf_append (xs ys : List TaggedBlock) :
    bytesOf (xs ++ ys) = bytesOf xs + bytesOf ys := by
  simp [bytesOf]

/-! ## Tilings -/

theorem Tiles.nodup {start stop : Nat} (h : Tiles start cs stop) : cs.Nodup := by
  refine h.pairwise.imp_of_mem fun {b c} hb _ hle he => ?_
  have hlarge := (h.bounds hb).2.2
  subst he
  simp only [minBlock] at hlarge
  omega

/-- The blocks of a tiling fill it. -/
theorem Tiles.bytesOf_eq {start stop : Nat} (h : Tiles start cs stop) :
    start + bytesOf cs = stop := by
  induction cs generalizing start with
  | nil => exact h
  | cons b cs ih =>
    have hrest : start + b.2.size + bytesOf cs = stop := ih h.2.2
    simp only [bytesOf, List.map_cons, List.sum_cons] at *
    omega

/-- The allocated blocks of a tiling fit into it, and each has a byte at least. -/
theorem Tiles.bytesOf_allocations_le {start stop : Nat} (h : Tiles start cs stop) :
    start + bytesOf (allocations cs) ≤ stop ∧
      (allocations cs).length ≤ bytesOf (allocations cs) := by
  induction cs generalizing start with
  | nil => exact ⟨Nat.le_of_eq h, Nat.le_refl _⟩
  | cons b cs ih =>
    obtain ⟨-, hlarge, htail⟩ := h
    obtain ⟨hend, hlen⟩ := ih htail
    simp only [allocations, List.filter_cons, bytesOf, minBlock] at *
    split
    · simp only [List.map_cons, List.sum_cons, List.length_cons]
      omega
    · omega

/-! ## Blocks given up and added -/

/-- With the block that is added, the blocks before are those after with the one given up. -/
theorem Heap.Swaps.perm {start stop start' stop' : Nat} {old new : Option TaggedBlock}
    (hsw : Swaps cs cs' (old.map Prod.fst) new) (hc : Tiles start cs stop)
    (hc' : Tiles start' cs' stop') (hold : ∀ b ∈ old, b ∈ allocations cs) :
    (new.toList ++ allocations cs).Perm (old.toList ++ allocations cs') := by
  -- The blocks that stay, by whether they were given up.
  let kept := (allocations cs).filter fun c => old.map Prod.fst ≠ some c.1
  have hkept : ∀ c,
      c ∈ kept ↔ (c ∈ cs ∧ c.2.status = .allocated) ∧ old.map Prod.fst ≠ some c.1 := by
    intro c
    simp [kept, mem_allocations]
  have hbefore : (allocations cs).Perm (old.toList ++ kept) := by
    refine (List.perm_ext_iff_of_nodup (hc.nodup.filter _) ?_).mpr fun c => ?_
    · refine List.nodup_append.mpr ⟨by cases old <;> simp, (hc.nodup.filter _).filter _, ?_⟩
      rintro c hco d hdk rfl
      exact ((hkept c).mp hdk).2 (by rw [Option.mem_toList.mp hco]; rfl)
    · show c ∈ allocations cs ↔ _
      rw [List.mem_append, hkept, mem_allocations, Option.mem_toList]
      constructor
      · intro hcm
        by_cases hg : old.map Prod.fst = some c.1
        · obtain ⟨d, hd, hdc⟩ := Option.map_eq_some_iff.mp hg
          have hdm := mem_allocations.mp (hold d hd)
          rw [← hc.eq_of_offset hdm.1 hcm.1 hdc]
          exact .inl hd
        · exact .inr ⟨hcm, hg⟩
      · rintro (hco | hck)
        · exact mem_allocations.mp (hold c hco)
        · exact hck.1
  have hafter : (allocations cs').Perm (new.toList ++ kept) := by
    refine (List.perm_ext_iff_of_nodup (hc'.nodup.filter _) ?_).mpr fun c => ?_
    · refine List.nodup_append.mpr ⟨by cases new <;> simp, (hc.nodup.filter _).filter _, ?_⟩
      rintro c hcn d hdk rfl
      obtain ⟨⟨hcm, ha⟩, hg⟩ := (hkept c).mp hdk
      exact hsw.fresh c (Option.mem_toList.mp hcn) c hcm ha hg rfl
    · show c ∈ allocations cs' ↔ _
      rw [List.mem_append, hkept, mem_allocations, Option.mem_toList]
      constructor
      · rintro ⟨hcm, ha⟩
        rcases (hsw.mem c ha).mp hcm with hn | ⟨hcs, hg⟩
        · exact .inl hn
        · exact .inr ⟨⟨hcs, ha⟩, hg⟩
      · rintro (hn | ⟨⟨hcs, ha⟩, hg⟩)
        · have ha := hsw.allocated c hn
          exact ⟨(hsw.mem c ha).mpr (.inl hn), ha⟩
        · exact ⟨(hsw.mem c ha).mpr (.inr ⟨hcs, hg⟩), ha⟩
  calc (new.toList ++ allocations cs).Perm (new.toList ++ (old.toList ++ kept)) :=
        hbefore.append_left _
    List.Perm _ (old.toList ++ (new.toList ++ kept)) := List.perm_append_comm_assoc ..
    List.Perm _ (old.toList ++ allocations cs') := hafter.symm.append_left _

/-- So are their number and their bytes. -/
theorem Heap.Swaps.figures {start stop start' stop' : Nat} {old new : Option TaggedBlock}
    (hsw : Swaps cs cs' (old.map Prod.fst) new) (hc : Tiles start cs stop)
    (hc' : Tiles start' cs' stop') (hold : ∀ b ∈ old, b ∈ allocations cs) :
    (allocations cs').length + old.toList.length = (allocations cs).length + new.toList.length ∧
      bytesOf (allocations cs') + bytesOf old.toList =
        bytesOf (allocations cs) + bytesOf new.toList := by
  have hperm := hsw.perm hc hc' hold
  have hlen := hperm.length_eq
  have hsum : bytesOf (new.toList ++ allocations cs) = bytesOf (old.toList ++ allocations cs') :=
    (hperm.map fun b : TaggedBlock => b.2.size).sum_eq
  rw [bytesOf_append, bytesOf_append] at hsum
  rw [List.length_append, List.length_append] at hlen
  omega

namespace Allocator

variable {a a' : Allocator} {ls : Nat → List Nat}

/-- The counters are the figures on the allocated blocks of `cs`. -/
structure Tally (a : Allocator) (cs : List TaggedBlock) : Prop where
  blocks : a.liveBlocks = (allocations cs).length
  bytes : a.liveBytes = bytesOf (allocations cs)

/-- Counters are bounded by the heap. -/
theorem Tally.le_maxWord (ht : a.Tally cs) (hs : a.heap.Sound cs ls) :
    a.liveBlocks ≤ maxWord ∧ a.liveBytes ≤ maxWord := by
  obtain ⟨hend, hlen⟩ := hs.chain.tiles.bytesOf_allocations_le
  have hspan := hs.span
  have hsmall := hs.small
  rw [ht.blocks, ht.bytes]
  simp only [epilogBytes, wordSize] at *
  omega

/-- An allocated block is counted. -/
theorem Tally.of_mem (ht : a.Tally cs) (hb : b ∈ cs) (ha : b.2.status = .allocated) :
    1 ≤ a.liveBlocks ∧ b.2.size ≤ a.liveBytes := by
  have hm := mem_allocations.mpr ⟨hb, ha⟩
  rw [ht.blocks, ht.bytes]
  exact ⟨List.length_pos_of_mem hm, List.le_sum_of_mem (List.mem_map_of_mem hm)⟩

/-- Counters that change by the block given up and the one added stay right. -/
theorem Tally.of_swaps (ht : a.Tally cs) (old new : Option TaggedBlock)
    (hsw : Swaps cs cs' (old.map Prod.fst) new) (hc : a.heap.Chain firstBlock cs)
    (hc' : a'.heap.Chain firstBlock cs') (hold : ∀ b ∈ old, b ∈ allocations cs)
    (hblocks : a'.liveBlocks + old.toList.length = a.liveBlocks + new.toList.length)
    (hbytes : a'.liveBytes + bytesOf old.toList = a.liveBytes + bytesOf new.toList) :
    a'.Tally cs' := by
  obtain ⟨hlen, hsum⟩ := hsw.figures hc.tiles hc'.tiles hold
  rw [ht.blocks] at hblocks
  rw [ht.bytes] at hbytes
  exact ⟨by omega, by omega⟩

end Allocator

end SegFit
