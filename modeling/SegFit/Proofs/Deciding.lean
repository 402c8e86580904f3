/-
  What a passed check amounts to, on any content of the store.  A list that is followed to its
  end has a word for the link to its epilog node, and that node is read, so the checker accepts no
  heap that links cannot address or that ends before its sentinels (`epilogNode_le_of_checkList`);
  on all others `check_iff` applies.
-/
import Mathlib.Algebra.BigOperators.Group.List.Basic
import SegFit.Proofs.Checker
import SegFit.Proofs.Accepted

namespace SegFit

theorem liftM_eq_pure {α : Type} {x : Except Fault α} {a : α} :
    (liftM x : Checked α) = pure a ↔ x = .ok a := by
  cases x with
  | error e =>
    refine iff_of_false (fun h => ?_) nofun
    have h : (Except.error e : Except Fault (Except Violation α)) = .ok (.ok a) := h
    cases h
  | ok y => rw [lift_ok, pure_eq_pure, Except.ok.injEq]

namespace Heap

variable {h : Heap}

/-- A walk over a list that comes to the epilog node came there by a link, and read that node. -/
theorem epilogNode_le_of_checkList {free : Offsets} {b n prev node : Nat} {listed result : Offsets}
    (hnode : node ≤ maxWord) (hr : h.checkList free b n prev node listed = pure result) :
    h.epilogNode b ≤ maxWord ∧ h.epilogNode b + wordSize ≤ h.size := by
  induction n generalizing prev node listed with
  | zero =>
    have hr : (Except.error .endless : Except Fault (Except Violation Offsets)) =
        .ok (.ok result) := hr
    cases hr
  | succ n ih =>
    rw [checkList] at hr
    split at hr
    · rename_i he
      obtain ⟨_, hpred, -⟩ := bind_eq_pure.mp hr
      exact he ▸ ⟨hnode, (Memory.pred_eq_ok (liftM_eq_pure.mp hpred)).1⟩
    split at hr
    · exact absurd hr throw_ne_pure
    obtain ⟨_, -, hr⟩ := bind_eq_pure.mp hr
    split at hr
    · exact absurd hr throw_ne_pure
    obtain ⟨_, -, hr⟩ := bind_eq_pure.mp hr
    split at hr
    · split at hr <;> exact absurd hr throw_ne_pure
    split at hr
    · exact absurd hr throw_ne_pure
    split at hr
    · exact absurd hr throw_ne_pure
    obtain ⟨next, hnext, hr⟩ := bind_eq_pure.mp hr
    exact ih (Memory.succ_eq_ok (liftM_eq_pure.mp hnext)).2 hr

/-- The epilog nodes of a heap that passes its check can be addressed by links, and the first word
of each can be read. -/
theorem epilogNodes_le_of_check (hr : h.check = .ok (.ok ())) {b : Nat} (hb : b < Bucket.count) :
    h.epilogNode b ≤ maxWord ∧ h.epilogNode b + wordSize ≤ h.size := by
  have hr : h.checkAll = pure () := hr
  obtain ⟨free, -, hr⟩ := bind_eq_pure.mp hr
  obtain ⟨_, hlists, -⟩ := bind_eq_pure.mp hr
  obtain ⟨_, _, hbucket⟩ := exists_of_foldlM_eq_pure hlists (List.mem_range.mpr hb)
  obtain ⟨next, hnext, hlist⟩ := bind_eq_pure.mp hbucket
  exact epilogNode_le_of_checkList (Memory.succ_eq_ok (liftM_eq_pure.mp hnext)).2 hlist

/-- Links can address the epilog of a heap that passes its check. -/
theorem epilogNode_le_of_check (hr : h.check = .ok (.ok ())) : h.epilogNode 0 ≤ maxWord :=
  (epilogNodes_le_of_check hr (by decide)).1

/-- Whatever the extent of the heap, what passes the check is well-formed, and all of it up to the
first word of the last epilog node can be read. -/
theorem wellFormed_of_check (hr : h.check = .ok (.ok ())) :
    h.WellFormed ∧ h.epilog + epilogBytes ≤ h.size + wordSize := by
  have hlast := (epilogNodes_le_of_check hr (b := Bucket.count - 1) (by decide)).2
  have hle := epilogNode_le_of_check hr
  have hroom : h.epilog + epilogBytes ≤ h.size + wordSize := by
    simp only [epilogNode, epilogBytes, nodeSize, wordSize, Bucket.count] at *
    omega
  refine ⟨(check_iff_of_readable hroom ?_).mp hr, hroom⟩
  simp only [epilogNode, wordSize, maxWord, offsetBound] at *
  omega

/-- The last node of a linked list is reached by a link. -/
theorem epilogNode_le_of_holds {b : Nat} {ns : List Nat} (hl : h.Holds b ns) :
    h.epilogNode b ≤ maxWord := by
  have hlast : ∀ (ns : List Nat) (x : Nat), h.mem.Linked (x :: ns ++ [h.epilogNode b]) →
      h.epilogNode b ≤ maxWord := by
    intro ns
    induction ns with
    | nil =>
      intro x hl
      exact hl.1 ▸ Nat.le_of_lt_succ (UInt32.toNat_lt _)
    | cons y ns ih => exact fun x hl => ih y hl.2.2
  exact hlast ns _ hl

/-- On the lists of a well-formed heap, a free block is on exactly one list exactly if it is once
on the list of its own bucket. -/
theorem count_flatMap_lists {cs : List TaggedBlock} {ls : Nat → List Nat} {start stop : Nat}
    (ht : Tiles start cs stop) (hl : Listed cs ls) {block : Nat} {tag : Tag}
    (hb : (block, tag) ∈ cs) :
    ((List.range Bucket.count).flatMap ls).count block =
      (ls (Bucket.ofSize tag.size)).count block := by
  have hother : ∀ b < Bucket.count, b ≠ Bucket.ofSize tag.size → (ls b).count block = 0 := by
    intro b hlt hne
    refine List.count_eq_zero.mpr fun hmem => hne ?_
    obtain ⟨t, ht', -, rfl⟩ := hl b hlt block hmem
    obtain ⟨-, rfl⟩ := Prod.mk.inj (ht.eq_of_offset ht' hb rfl)
    rfl
  have honce : (List.range Bucket.count).count (Bucket.ofSize tag.size) = 1 := by
    rw [List.nodup_range.count, if_pos (List.mem_range.mpr (Bucket.ofSize_lt _))]
  rw [List.count_flatMap, List.sum_map_eq_nsmul_single (Bucket.ofSize tag.size)
    (List.count block ∘ ls) fun b hne hb => hother b (List.mem_range.mp hb) hne, honce, one_nsmul]
  rfl

/-- The check passes exactly if the blocks from the first one on form a chain up to the epilog
header, no two neighbours of it are free, the sentinels of each bucket are the ends of a list
linked in both directions, the nodes of that are free blocks of the chain and of the bucket, and
each free block is on exactly one of the lists. -/
theorem check_decides (hspan : h.epilog + epilogBytes = h.size) :
    h.check = .ok (.ok ()) ↔ ∃ (cs : List TaggedBlock) (lists : Nat → List Nat),
      h.Chain firstBlock cs ∧ Separated cs ∧
      (∀ b < Bucket.count, h.Holds b (lists b)) ∧
      (∀ b < Bucket.count, ∀ node ∈ lists b,
        ∃ tag, (node, tag) ∈ cs ∧ tag.isFree ∧ Bucket.ofSize tag.size = b) ∧
      ∀ block tag, (block, tag) ∈ cs → tag.isFree →
        ((List.range Bucket.count).flatMap lists).count block = 1 := by
  have hsmall : h.epilogNode 0 ≤ maxWord → h.size < offsetBound := by
    intro hle
    simp only [epilogNode, ← hspan, epilogBytes, nodeSize, wordSize, Bucket.count, maxWord,
      offsetBound] at *
    omega
  constructor
  · intro hcheck
    have hm := hsmall (epilogNode_le_of_check hcheck)
    obtain ⟨cs, ls, hsh⟩ := (check_iff (Nat.le_of_eq hspan) hm).mp hcheck
    refine ⟨cs, ls, hsh.chain, hsh.separated, hsh.linked, hsh.listed, fun block tag hb hf => ?_⟩
    rw [count_flatMap_lists hsh.chain.tiles hsh.listed hb, hsh.complete block tag hb hf]
  · rintro ⟨cs, ls, hc, hsep, hlinked, hlisted, honce⟩
    have hm := hsmall (epilogNode_le_of_holds (hlinked 0 (by decide)))
    refine (check_iff (Nat.le_of_eq hspan) hm).mpr ⟨cs, ls, hc, hsep, hlinked, hlisted,
      fun block tag hb hf => ?_⟩
    rw [← count_flatMap_lists hc.tiles hlisted hb, honce block tag hb hf]

/-- A heap of three blocks: free ones of 24 and 16 bytes, the second before the first on their
list, and an allocated one between them. -/
def twoHoles : Heap :=
  let epilog := firstHeader + 56
  let prologNodes := (List.range Bucket.count).flatMap fun b =>
    [0, .ofNat (if b = 0 then 152 else epilog + wordSize + b * nodeSize)]
  let epilogNodes := (List.range Bucket.count).flatMap fun b =>
    [.ofNat (if b = 0 then 112 else prologNode b), 0]
  let blocks := [24, 152, 168, 0, 0, 24] ++ [17, 0, 0, 17] ++ [16, 0, 112, 16]
  ⟨Allocator.ofWords (prologNodes ++ 0 :: blocks ++ 0 :: epilogNodes), epilog⟩

theorem check_twoHoles : twoHoles.check = .ok (.ok ()) := by decide +kernel

/-- The same heap, with its first block taken off the list. -/
def unlisted : Heap :=
  { twoHoles with mem := (twoHoles.mem.setWord 156 168).setWord 168 152 }

/-- The blocks and links of the second heap are in order; but its first block is free, and on no
list. -/
theorem check_decides_unlisted :
    (twoHoles.epilog + epilogBytes = twoHoles.size ∧ twoHoles.check = .ok (.ok ()) ∧
      ∃ (cs : List TaggedBlock) (lists : Nat → List Nat),
        twoHoles.Chain firstBlock cs ∧ Separated cs ∧
        (∀ b < Bucket.count, twoHoles.Holds b (lists b)) ∧
        ∀ block tag, (block, tag) ∈ cs → tag.isFree →
          ((List.range Bucket.count).flatMap lists).count block = 1) ∧
    unlisted.epilog + epilogBytes = unlisted.size ∧
      unlisted.check = .ok (.error (.unlisted ⟨112, 24, some .free, some (152, 168)⟩)) ∧
      ¬ ∃ (cs : List TaggedBlock) (lists : Nat → List Nat),
        unlisted.Chain firstBlock cs ∧ Separated cs ∧
        (∀ b < Bucket.count, unlisted.Holds b (lists b)) ∧
        (∀ b < Bucket.count, ∀ node ∈ lists b,
          ∃ tag, (node, tag) ∈ cs ∧ tag.isFree ∧ Bucket.ofSize tag.size = b) ∧
        ∀ block tag, (block, tag) ∈ cs → tag.isFree →
          ((List.range Bucket.count).flatMap lists).count block = 1 := by
  constructor
  · have hspan : twoHoles.epilog + epilogBytes = twoHoles.size := by decide +kernel
    obtain ⟨cs, lists, hchain, hsep, hlinked, -, honce⟩ :=
      (check_decides hspan).mp check_twoHoles
    exact ⟨hspan, check_twoHoles, cs, lists, hchain, hsep, hlinked, honce⟩
  · have hspan : unlisted.epilog + epilogBytes = unlisted.size := by decide +kernel
    have hverdict : unlisted.check =
        .ok (.error (.unlisted ⟨112, 24, some .free, some (152, 168)⟩)) := by decide +kernel
    refine ⟨hspan, hverdict, fun h => ?_⟩
    cases hverdict.symm.trans ((check_decides hspan).mpr h)

end Heap

end SegFit
