/-
  The diagnostics on arbitrary bytes.  Where the sentinels lie in the store, the check, the walk
  over the blocks, the figures and the dump end on any content of it: every read is in range, no
  sum is too large, and with their arithmetic guarded they end alike (`Coincide`).  No list is
  followed for ever, since each step lists a free block that was not listed before
  (`coincide_checkList`).  What the walk yields tiles the heap from its start, and all of it if the
  check passes (`diagnostics_coincide`).
-/
import Mathlib.Data.List.Induction
import SegFit.Guarded.Diagnostics
import SegFit.Proofs.Accounts
import SegFit.Proofs.Foremost

namespace SegFit

/-- Both computations end, and alike. -/
def Coincide {α : Type} (x y : Except Fault α) : Prop :=
  ∃ r, x = .ok r ∧ y = .ok r

namespace Coincide

variable {α β : Type}

theorem refl {x : Except Fault α} {a : α} (h : x = .ok a) : Coincide x x :=
  ⟨a, h, h⟩

theorem fail (v : Violation) :
    Coincide (throw v : Checked α).run (throw v : Checked α).run :=
  refl rfl

theorem pass (a : α) : Coincide (pure a : Checked α).run (pure a : Checked α).run :=
  refl rfl

theorem bind {x y : Checked α} {f g : α → Checked β} (hx : Coincide x.run y.run)
    (hf : ∀ a, y = pure a → Coincide (f a).run (g a).run) :
    Coincide (x >>= f).run (y >>= g).run := by
  obtain ⟨r, hx, hy⟩ := hx
  have hx : x = ExceptT.mk (.ok r) := hx
  have hy : y = ExceptT.mk (.ok r) := hy
  rw [hx, hy]
  cases r with
  | error v => exact fail v
  | ok a => exact hf a hy

/-- What is computed for the wording of a violation. -/
theorem fail_with {x y : Except Fault α} (h : Coincide x y) (v : α → Violation) :
    Coincide ((liftM x : Checked α) >>= fun a => (throw (v a) : Checked β)).run
      ((liftM y : Checked α) >>= fun a => (throw (v a) : Checked β)).run := by
  obtain ⟨a, rfl, rfl⟩ := h
  exact fail (v a)

theorem foldlM {f g : β → α → Checked β} {xs : List α} (b : β)
    (h : ∀ x ∈ xs, ∀ b, Coincide (f b x).run (g b x).run) :
    Coincide (xs.foldlM f b).run (xs.foldlM g b).run := by
  induction xs generalizing b with
  | nil => exact pass b
  | cons x xs ih =>
    rw [List.foldlM_cons, List.foldlM_cons]
    exact bind (h x List.mem_cons_self b) fun b' _ =>
      ih b' fun y hy => h y (List.mem_cons_of_mem x hy)

end Coincide

/-! ## The check -/

namespace Memory

/-- What lies in the store is described, with or without its links. -/
theorem coincide_describe {m : Memory} {block : Nat} (hb : wordSize ≤ block) (hin : block ≤ m.size)
    (hsize : m.size + maxWord < offsetBound) :
    Coincide (m.guardedDescribe block) (m.describe block) := by
  unfold guardedDescribe describe
  rw [tagOf_of_le hb hin, ok_bind, ok_bind]
  cases Tag.decode (m.word (block - wordSize)) with
  | none => exact .refl rfl
  | some tag =>
    have hsum : offset (block + 2 * wordSize) = .ok (block + 2 * wordSize) :=
      offset_of_lt (by simp only [wordSize, maxWord] at *; omega)
    simp only [hsum, ok_bind]
    split
    · rename_i hlinks
      rw [Heap.freeLinks_eq (b := (block, tag)) hlinks]
      exact .refl rfl
    · exact .refl rfl

end Memory

namespace Heap

variable {h : Heap} (hroom : h.epilog + epilogBytes ≤ h.size)
  (hsize : h.size + maxWord < offsetBound)
include hroom hsize

theorem coincide_describe {block : Nat} (hb : wordSize ≤ block)
    (hle : block ≤ h.epilog + wordSize) :
    Coincide (h.mem.guardedDescribe block) (h.mem.describe block) :=
  Memory.coincide_describe hb
    (by simp only [Heap.size, epilogBytes, wordSize] at *; omega) hsize

/-- The walk over the blocks ends with a verdict, and no read or sum on the way fails. -/
theorem coincide_checkBlocks (block : Nat) (hb : wordSize ≤ block) (prev : Option Nat) :
    Coincide (h.guardedCheckBlocks block prev).run (h.checkBlocks block prev).run := by
  rw [guardedCheckBlocks, checkBlocks]
  rw [header, difference_of_le hb, lift_ok, pure_bind_checked]
  by_cases hpast : h.epilog < block - wordSize
  · rw [if_pos hpast, if_pos hpast]
    exact .fail _
  have hle : block ≤ h.epilog + wordSize := by omega
  have hdescribe := coincide_describe hroom hsize hb hle
  have hin : block ≤ h.mem.size := by
    simp only [Heap.size, epilogBytes, wordSize] at *
    omega
  rw [if_neg hpast, if_neg hpast, Memory.tagOf_of_le hb hin, lift_ok, pure_bind_checked,
    pure_bind_checked]
  cases ht : Tag.decode (h.mem.word (block - wordSize)) with
  | none =>
    show Coincide (ite _ _ _) (ite _ _ _)
    split
    · exact .fail _
    · exact .pass _
  | some tag =>
    have henc := Tag.encodable_of_decode ht
    have hfits : block - wordSize + tag.size < offsetBound := by
      have := henc.2
      simp only [epilogBytes, maxBlock, maxWord] at *
      omega
    show Coincide (ite (block % alignment ≠ 0) _ _) (ite (block % alignment ≠ 0) _ _)
    by_cases hal : block % alignment ≠ 0
    · rw [if_pos hal, if_pos hal]
      exact .fail_with hdescribe _
    rw [if_neg hal, if_neg hal, offset_of_lt hfits, lift_ok, pure_bind_checked]
    by_cases hrange : tag.size < minBlock ∨ h.epilog < block - wordSize + tag.size
    · rw [if_pos hrange, if_pos hrange]
      exact .fail _
    have hend : block + tag.size ≤ h.epilog + wordSize := by omega
    have hlt : block + tag.size < offsetBound := by
      simp only [epilogBytes] at *
      omega
    have hfoot : footer block tag.size = .ok (block + tag.size - overhead) :=
      footer_of_le (by simp only [minBlock, overhead] at *; omega) hlt
    have hread := Memory.readWord_of_le (m := h.mem) (i := block + tag.size - overhead) (by
      simp only [Heap.size, epilogBytes, minBlock, overhead, wordSize] at *
      omega)
    rw [if_neg hrange, if_neg hrange, Tag.encode_of_encodable henc, hfoot]
    simp only [lift_ok, pure_bind_checked, hread, offset_of_lt hlt]
    by_cases hw : h.mem.word (block + tag.size - overhead) ≠ tag.word
    · rw [if_pos hw, if_pos hw]
      exact .fail_with hdescribe _
    rw [if_neg hw, if_neg hw]
    have hnext := fun prev => coincide_checkBlocks (block + tag.size) (by omega) prev
    cases tag.status with
    | allocated => exact hnext none
    | free =>
      cases prev with
      | some prev => exact .fail_with hdescribe _
      | none => exact (hnext (some block)).bind fun free _ => .pass _
termination_by h.epilog + wordSize - block
decreasing_by
  simp only [minBlock, wordSize] at *
  omega

/-! ## The lists -/

/-- The walk over a list ends: each step lists one block more, so that of the free blocks no more
than `rest` are left to list. -/
theorem coincide_checkList {free : Offsets} {b : Nat} (hb : b < Bucket.count) (n prev node : Nat)
    (listed : Offsets) (rest : List Nat)
    (hrest : ∀ x, free.contains x = true → x ∈ rest ∨ listed.contains x = true)
    (hn : rest.length < n) :
    Coincide (h.guardedCheckList free b (h.epilogNode b) n prev node listed).run
      (h.checkList free b n prev node listed).run := by
  induction n generalizing prev node listed rest with
  | zero => exact absurd hn (Nat.not_lt_zero _)
  | succ n ih =>
    rw [guardedCheckList, checkList]
    by_cases hend : node = h.epilogNode b
    · have hin : node + wordSize ≤ h.mem.size := by
        simp only [hend, Heap.size, epilogNode, epilogBytes, nodeSize, wordSize, Bucket.count] at *
        omega
      rw [if_pos hend, if_pos hend, Memory.pred_of_le hin, lift_ok, pure_bind_checked]
      split
      · exact .fail _
      · exact .pass _
    rw [if_neg hend, if_neg hend]
    by_cases hstray : node < firstBlock ∨ h.epilog ≤ node ∨ node % alignment ≠ 0
    · rw [if_pos hstray, if_pos hstray]
      exact .fail _
    have hin : node + nodeSize ≤ h.mem.size := by
      simp only [Heap.size, epilogBytes, nodeSize, wordSize, Bucket.count] at *
      omega
    have hdescribe : Coincide (h.mem.guardedDescribe node) (h.mem.describe node) :=
      coincide_describe hroom hsize (by simp only [firstBlock, overhead, wordSize] at *; omega)
        (by omega)
    obtain ⟨seen, hguarded, hplain⟩ := hdescribe
    rw [if_neg hstray, if_neg hstray,
      Memory.pred_of_le (by simp only [nodeSize, wordSize] at *; omega), hguarded, hplain,
      Memory.succ_of_le hin]
    simp only [lift_ok, pure_bind_checked]
    split
    · exact .fail _
    split
    · rcases seen.status with _ | _ | _ <;> exact .fail _
    rename_i hfree
    split
    · exact .fail _
    split
    · exact .fail _
    rename_i hnew
    have hmem : node ∈ rest := (hrest node (by simpa using hfree)).resolve_right hnew
    refine ih _ _ _ (rest.erase node) (fun x hx => ?_) ?_
    · rw [contains_insert_iff]
      by_cases hxn : node = x
      · exact .inr (.inl hxn)
      · rcases hrest x hx with hx | hx
        · exact .inl ((List.mem_erase_of_ne (Ne.symm hxn)).mpr hx)
        · exact .inr (.inr hx)
    · rw [List.length_erase_of_mem hmem]
      have := List.length_pos_of_mem hmem
      omega

/-- The walk over each list ends. -/
theorem coincide_checkBucket (hfirst : firstHeader ≤ h.epilog) (free listed : Offsets) {b : Nat}
    (hb : b < Bucket.count) :
    Coincide (h.guardedCheckBucket free listed b).run (h.checkBucket free listed b).run := by
  have htail : offset (h.epilogNode b) = .ok (h.epilogNode b) := offset_of_lt (by
    simp only [epilogNode, epilogBytes, nodeSize, wordSize, Bucket.count] at *
    omega)
  have hin : prologNode b + nodeSize ≤ h.mem.size := by
    simp only [Heap.size, prologNode, firstHeader, prologEnd, epilogBytes, nodeSize, wordSize,
      Bucket.count] at *
    omega
  unfold guardedCheckBucket checkBucket
  rw [htail, Memory.succ_of_le hin]
  simp only [lift_ok, pure_bind_checked]
  refine coincide_checkList hroom hsize hb _ _ _ _ free.toList (fun x hx => .inl ?_) ?_
  · simpa using hx
  · simp [Std.TreeSet.length_toList]

/-- On any content of the store the check ends with a verdict. -/
theorem coincide_check (hfirst : firstHeader ≤ h.epilog) : Coincide h.guardedCheck h.check := by
  refine (coincide_checkBlocks hroom hsize firstBlock (by decide) none).bind fun free hfree => ?_
  refine (Coincide.foldlM _ fun b hb listed => ?_).bind fun listed _ => ?_
  · exact coincide_checkBucket hroom hsize hfirst _ listed (List.mem_range.mp hb)
  cases hfind : free.find? fun block => !listed.contains block with
  | none => exact .pass _
  | some block =>
    obtain ⟨cs, hc, -, rfl⟩ := (checkBlocks_iff
      (by simp only [epilogBytes] at hroom; omega) (by simp only [epilogBytes] at hroom; omega) _
      (by decide) (by decide) none free).mp hfree
    have hin := hc.of_mem_freeOffsets (List.mem_of_find?_eq_some hfind)
    exact .fail_with (coincide_describe hroom hsize
      (by simp only [firstBlock, overhead, wordSize] at *; omega)
      (by simp only [minBlock] at hin; omega)) _

end Heap

/-! ## The figures -/

theorem sum_filter_le (p : Block → Bool) (bs : List Block) :
    ((bs.filter p).map Block.size).sum ≤ (bs.map Block.size).sum :=
  (List.filter_sublist.map _).sum_le_sum fun _ _ => Nat.zero_le _

namespace Occupancy

theorem freeByBucket_concat (size : Nat) (bs : List Block) {b : Block} (hb : b.isFree) :
    (ofBlocks size (bs ++ [b])).freeByBucket =
      (ofBlocks size bs).freeByBucket.set (Bucket.ofSize b.size)
        ((bs.filter Block.isFree).countP (fun c => Bucket.ofSize c.size = Bucket.ofSize b.size) +
          1) := by
  refine List.ext_getElem (by simp [ofBlocks]) fun k hk _ => ?_
  simp only [ofBlocks, List.getElem_map, List.getElem_range, List.getElem_set, List.filter_append,
    List.filter_cons, hb, if_true, List.filter_nil, List.countP_append, List.countP_singleton]
  by_cases he : Bucket.ofSize b.size = k
  · subst he
    simp
  · simp [he]

/-- One block more is counted as long as no count and no sum gets too large. -/
theorem guardedCount_eq (size : Nat) {bs : List Block} {b : Block}
    (hlen : bs.length + 1 < offsetBound)
    (hsum : (bs.map Block.size).sum + b.size < offsetBound) :
    (ofBlocks size bs).guardedCount b = .ok (ofBlocks size (bs ++ [b])) := by
  have hcount : ∀ p : Block → Bool, (bs.filter p).length + 1 < offsetBound := fun p =>
    Nat.lt_of_le_of_lt (Nat.succ_le_succ (List.length_filter_le p bs)) hlen
  have hbytes : ∀ p, ((bs.filter p).map Block.size).foldl (· + ·) 0 + b.size < offsetBound := by
    intro p
    rw [← List.sum_eq_foldl]
    exact Nat.lt_of_le_of_lt (Nat.add_le_add_right (sum_filter_le p bs) _) hsum
  unfold guardedCount
  by_cases hb : b.isFree
  · have hget : (ofBlocks size bs).freeByBucket[Bucket.ofSize b.size]? =
        some ((bs.filter Block.isFree).countP fun c =>
          Bucket.ofSize c.size = Bucket.ofSize b.size) := by
      simp [ofBlocks, Bucket.ofSize_lt]
    have hbucket := Nat.lt_of_le_of_lt (Nat.succ_le_succ (List.countP_le_length
      (p := fun c : Block => Bucket.ofSize c.size = Bucket.ofSize b.size))) (hcount Block.isFree)
    have hblocks : offset ((ofBlocks size bs).freeBlocks + 1) = .ok _ := offset_of_lt (hcount _)
    have hsizes : offset ((ofBlocks size bs).freeBytes + b.size) = .ok _ :=
      offset_of_lt (hbytes _)
    rw [if_pos hb, hget]
    simp only [hblocks, hsizes, offset_of_lt hbucket, ok_bind]
    refine congrArg Except.ok ?_
    rw [← freeByBucket_concat size bs hb]
    simp [ofBlocks, List.filter_append, hb]
  · have hblocks : offset ((ofBlocks size bs).allocatedBlocks + 1) = .ok _ :=
      offset_of_lt (hcount _)
    have hsizes : offset ((ofBlocks size bs).allocatedBytes + b.size) = .ok _ :=
      offset_of_lt (hbytes _)
    rw [if_neg hb]
    simp only [hblocks, hsizes, ok_bind]
    refine congrArg Except.ok ?_
    simp [ofBlocks, List.filter_append, hb]

/-- Counted one by one, blocks whose sizes have a sum give the figures. -/
theorem guardedOfBlocks_eq (size : Nat) (bs : List Block) (hpos : ∀ b ∈ bs, 0 < b.size)
    (hsum : (bs.map Block.size).sum < offsetBound) :
    guardedOfBlocks size bs = .ok (ofBlocks size bs) := by
  induction bs using List.reverseRecOn with
  | nil => rfl
  | append_singleton bs b ih =>
    have hlen := List.length_le_sum_of_one_le ((bs ++ [b]).map Block.size)
      (List.forall_mem_map.mpr hpos)
    simp only [List.map_append, List.sum_append, List.length_append, List.map_singleton,
      List.sum_singleton, List.length_singleton, List.length_map] at *
    have hstart := ih (fun c hc => hpos c (List.mem_append_left _ hc)) (by omega)
    unfold guardedOfBlocks at *
    rw [List.foldlM_append, hstart, ok_bind, List.foldlM_cons, guardedCount_eq size (by omega) hsum]
    rfl

end Occupancy

/-! ## The walk over the blocks -/

theorem exists_mapM {α β : Type} {f : α → Except Fault β} (xs : List α)
    (hf : ∀ x ∈ xs, ∃ y, f x = .ok y) : ∃ ys, xs.mapM f = .ok ys := by
  induction xs with
  | nil => exact ⟨[], rfl⟩
  | cons x xs ih =>
    obtain ⟨y, hy⟩ := hf x List.mem_cons_self
    obtain ⟨ys, hys⟩ := ih fun z hz => hf z (List.mem_cons_of_mem x hz)
    exact ⟨y :: ys, by rw [List.mapM_cons, hy, ok_bind, hys]; rfl⟩

namespace Heap

variable {h : Heap}

/-- The walk over the blocks ends, and what it yields tiles a part of the heap. -/
theorem exists_blocksFrom (hroom : h.epilog + epilogBytes ≤ h.size)
    (hsize : h.size + maxWord < offsetBound) (block : Nat) (hb : wordSize ≤ block)
    (hle : block ≤ h.epilog + wordSize) :
    ∃ bs stop, h.guardedBlocksFrom block = .ok bs ∧ h.blocksFrom block = .ok bs ∧
      Tiles block (bs.map Block.tagged) stop ∧ stop ≤ h.epilog + wordSize := by
  have hnone : Tiles block (([] : List Block).map Block.tagged) block := rfl
  have hin : block ≤ h.mem.size := by
    simp only [Heap.size, epilogBytes, wordSize] at *
    omega
  rw [guardedBlocksFrom, blocksFrom, header, difference_of_le hb, ok_bind]
  by_cases hpast : h.epilog ≤ block - wordSize
  · exact ⟨[], block, by rw [if_pos hpast]; rfl, by rw [if_pos hpast]; rfl, hnone, hle⟩
  rw [if_neg hpast, if_neg hpast, Memory.tagOf_of_le hb hin, ok_bind, ok_bind]
  cases ht : Tag.decode (h.mem.word (block - wordSize)) with
  | none => exact ⟨[], block, rfl, rfl, hnone, hle⟩
  | some tag =>
    have hfits : block - wordSize + tag.size < offsetBound := by
      have := (Tag.encodable_of_decode ht).2
      simp only [epilogBytes, maxBlock, maxWord] at *
      omega
    simp only [offset_of_lt hfits, ok_bind]
    by_cases hrange : tag.size < minBlock ∨ h.epilog < block - wordSize + tag.size
    · exact ⟨[], block, by rw [if_pos hrange]; rfl, by rw [if_pos hrange]; rfl, hnone, hle⟩
    have hlinks := freeLinks_eq (m := h.mem) (b := (block, tag)) (by
      simp only [Heap.size, epilogBytes, minBlock, nodeSize, wordSize, Bucket.count] at *
      omega)
    have hlarge : minBlock ≤ tag.size := by omega
    obtain ⟨bs, stop, hguarded, hplain, htiles, hstop⟩ :=
      exists_blocksFrom hroom hsize (block + tag.size) (by omega) (by omega)
    have hlt : block + tag.size < offsetBound := by
      simp only [epilogBytes] at *
      omega
    rw [if_neg hrange, if_neg hrange, hlinks, ok_bind, ok_bind, offset_of_lt hlt, ok_bind, hguarded,
      hplain]
    exact ⟨_, stop, rfl, rfl, ⟨rfl, hlarge, htiles⟩, hstop⟩
termination_by h.epilog + wordSize - block
decreasing_by
  simp only [minBlock, wordSize] at *
  omega

/-- A block that the walk yields is described without a fault. -/
theorem exists_dumpBlock (hroom : h.epilog + epilogBytes ≤ h.size)
    (hsize : h.size + maxWord < offsetBound) {b : Block} (hb : wordSize ≤ b.offset)
    (hlarge : minBlock ≤ b.size) (hle : b.offset + b.size ≤ h.epilog + wordSize) :
    ∃ line, h.dumpBlock b = .ok line := by
  have hfoot : footer b.offset b.size = .ok (b.offset + b.size - overhead) :=
    footer_of_le (Nat.le_trans (by decide) hlarge) (by simp only [epilogBytes] at *; omega)
  have htag := Memory.tagAt_of_le (m := h.mem) (i := b.offset + b.size - overhead) (by
    simp only [Heap.size, epilogBytes, overhead, minBlock, wordSize] at *
    omega)
  unfold dumpBlock
  rw [header, difference_of_le hb, hfoot]
  simp only [ok_bind, htag]
  cases b.status <;> exact ⟨_, rfl⟩

/-- Where the sentinels lie in the store, diagnostics end on any content of it, without a fault and,
with their arithmetic guarded, alike: the check with a verdict, and the walk over the blocks, the
figures and the dump.  The blocks lie one after the other between the prolog and the epilog header,
and fill all of this if the check passes.  A store has fewer than `2 ^ 63` bytes, so that with a
word added its size is an offset. -/
theorem diagnostics_coincide (hroom : h.epilog + epilogBytes ≤ h.size)
    (hfirst : firstHeader ≤ h.epilog) (hsize : h.size + maxWord < offsetBound) :
    Coincide h.guardedCheck h.check ∧ Coincide h.guardedOccupancy h.occupancy ∧
      Coincide h.guardedDump h.dump ∧
      ∃ bs, h.guardedBlocks = .ok bs ∧ h.blocks = .ok bs ∧
        bs.Pairwise (fun b c => b.offset < c.offset) ∧
        (∀ b ∈ bs, firstHeader ≤ b.offset - wordSize ∧ b.offset - wordSize + b.size ≤ h.epilog) ∧
        (h.check = .ok (.ok ()) →
          Tiles firstBlock (bs.map Block.tagged) (h.epilog + wordSize)) := by
  obtain ⟨bs, stop, hguarded, hplain, htiles, hstop⟩ := exists_blocksFrom hroom hsize firstBlock
    (by decide) (Nat.add_le_add_right hfirst wordSize)
  have hguarded : h.guardedBlocks = .ok bs := hguarded
  have hplain : h.blocks = .ok bs := hplain
  have hbounds : ∀ b ∈ bs,
      firstBlock ≤ b.offset ∧ b.offset + b.size ≤ stop ∧ minBlock ≤ b.size :=
    fun b hb => htiles.bounds (List.mem_map_of_mem hb)
  have hsum : (bs.map Block.size).sum < offsetBound := by
    have hbytes : firstBlock + ((bs.map Block.tagged).map fun b => b.2.size).sum = stop :=
      htiles.bytesOf_eq
    rw [List.map_map, show (fun b : TaggedBlock => b.2.size) ∘ Block.tagged = Block.size from rfl]
      at hbytes
    simp only [epilogBytes] at hroom
    omega
  have hfigures := Occupancy.guardedOfBlocks_eq h.size bs
    (fun b hb => Nat.lt_of_lt_of_le (by decide) (hbounds b hb).2.2) hsum
  obtain ⟨lines, hlines⟩ := exists_mapM bs fun b hb => exists_dumpBlock hroom hsize
    (Nat.le_trans (by decide) (hbounds b hb).1) (hbounds b hb).2.2
    (Nat.le_trans (hbounds b hb).2.1 hstop)
  refine ⟨coincide_check hroom hsize hfirst, ?_, ?_, bs, hguarded, hplain, ?_, fun b hb => ?_, ?_⟩
  · unfold guardedOccupancy occupancy
    rw [hguarded, hplain, ok_bind, ok_bind, hfigures]
    exact .refl rfl
  · unfold guardedDump dump
    rw [hguarded, hplain, ok_bind, ok_bind, hlines, ok_bind, ok_bind, hfigures]
    exact .refl rfl
  · refine (List.pairwise_map.mp htiles.pairwise).imp_of_mem fun {b c} hb _ hle => ?_
    have hlarge := (hbounds b hb).2.2
    have hle : b.offset + b.size ≤ c.offset := hle
    simp only [minBlock] at hlarge
    omega
  · have := hbounds b hb
    simp only [firstBlock, firstHeader, overhead, wordSize] at *
    omega
  · intro hcheck
    obtain ⟨⟨cs, ls, hs⟩, -⟩ := wellFormed_of_check hcheck
    have hview := hs.chain.blocksFrom hroom (by decide)
    obtain rfl := Except.ok.inj (hplain.symm.trans hview)
    rw [map_tagged_views]
    exact hs.chain.tiles

/-- A heap whose list goes round: the node that was its last leads back to the first. -/
def cyclic : Heap :=
  { twoHoles with mem := twoHoles.mem.setWord 116 152 }

theorem diagnostics_coincide_cyclic :
    cyclic.epilog + epilogBytes ≤ cyclic.size ∧ firstHeader ≤ cyclic.epilog ∧
      cyclic.size + maxWord < offsetBound ∧
      cyclic.guardedCheck = .ok (.error (.brokenLink 0 152 112 0)) ∧
      ∃ bs, cyclic.blocks = .ok bs ∧ bs.Pairwise fun b c => b.offset < c.offset := by
  have hroom : cyclic.epilog + epilogBytes ≤ cyclic.size := by decide +kernel
  have hsize : cyclic.size + maxWord < offsetBound := by decide +kernel
  have hfirst : firstHeader ≤ cyclic.epilog := by decide
  have hverdict : cyclic.check = .ok (.error (.brokenLink 0 152 112 0)) := by decide +kernel
  obtain ⟨⟨verdict, hguarded, hplain⟩, -, -, bs, -, hbs, hordered, -⟩ :=
    diagnostics_coincide hroom hfirst hsize
  obtain rfl := Except.ok.inj (hplain.symm.trans hverdict)
  exact ⟨hroom, hfirst, hsize, hguarded, bs, hbs, hordered⟩

end Heap

end SegFit
