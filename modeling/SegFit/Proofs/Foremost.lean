/-
  Which block first fit takes.  On a heap that passes its check, and on no other hypothesis, the
  search finds the first block of sufficient size on the list of the lowest bucket that has one
  (`Foremost`).  Sizes of one bucket are within a factor of two, so in any bucket but the last
  the block found is less than twice as large as the best choice (`Foremost.lt_two_mul`), and above
  the bucket of the request every block would do, so that there it is the head of its list
  (`Foremost.head`).
-/
import SegFit.Proofs.Deciding

namespace SegFit

namespace Bucket

/-- A size is less than twice any block size of its bucket or a higher one, the last one apart. -/
theorem lt_two_mul {m n : Nat} (hm : ofSize m + 1 < count) (hn : minBlock ≤ n)
    (hle : ofSize m ≤ ofSize n) : m < 2 * n := by
  have hn : 2 ^ 4 ≤ n := hn
  have hpos : n ≠ 0 := by omega
  have hlog : m.log2 ≤ n.log2 := by
    have := (Nat.le_log2 hpos).mpr hn
    simp only [ofSize, count] at *
    omega
  calc m < 2 ^ (m.log2 + 1) := Nat.lt_log2_self
    _ ≤ 2 ^ (n.log2 + 1) := Nat.pow_le_pow_right (by decide) (by omega)
    _ = 2 * 2 ^ n.log2 := by rw [Nat.pow_succ, Nat.mul_comm]
    _ ≤ 2 * n := Nat.mul_le_mul_left 2 (Nat.log2_self_le hpos)

end Bucket

namespace Heap

variable {h : Heap} {cs : List TaggedBlock} {ls : Nat → List Nat} {size : Nat} {x : TaggedBlock}

/-- A free block of at least `size` bytes. -/
structure Fitting (cs : List TaggedBlock) (size : Nat) (c : TaggedBlock) : Prop where
  mem : c ∈ cs
  free : c.2.isFree
  large : size ≤ c.2.size

/-- Of the free blocks of at least `size` bytes, `x` is in the lowest bucket, and there the first on
the list. -/
structure Foremost (cs : List TaggedBlock) (ls : Nat → List Nat) (size : Nat) (x : TaggedBlock) :
    Prop where
  fitting : Fitting cs size x
  lowest : ∀ c, Fitting cs size c → Bucket.ofSize x.2.size ≤ Bucket.ofSize c.2.size
  first : ∃ before after, ls (Bucket.ofSize x.2.size) = before ++ x.1 :: after ∧
    ∀ c, Fitting cs size c → c.1 ∉ before

/-- First fit chooses the foremost block. -/
theorem Legible.foremost (hk : h.Legible cs ls) (hcomplete : Complete cs ls) {offset : Nat}
    (hx : fit cs ls size = some offset) : ∃ tag, Foremost cs ls size (offset, tag) := by
  have htiles := hk.chain.tiles
  obtain ⟨lower, b, higher, hsplit, hfind, hlower⟩ := List.findSome?_eq_some_iff.mp hx
  have hb : b ∈ (List.range Bucket.count).drop (Bucket.ofSize size) := by simp [hsplit]
  obtain ⟨hlarge, before, after, hls, hbefore⟩ := List.find?_eq_some_iff_append.mp hfind
  obtain ⟨tag, hmem, hfree, rfl⟩ := hk.listed b (List.mem_range.mp (List.mem_of_mem_drop hb))
    offset (by simp [hls])
  rw [sizeAt_of_mem htiles hmem, decide_eq_true_eq] at hlarge
  refine ⟨tag, ⟨hmem, hfree, hlarge⟩, fun c hc => ?_, before, after, hls, fun c hc hin => ?_⟩
  · -- The buckets are searched in order, so one below was searched before, and without success.
    have hsorted : (lower ++ Bucket.ofSize tag.size :: higher).Pairwise (· < ·) := by
      rw [← hsplit]
      exact List.pairwise_lt_range.drop
    have hsearched := Bucket.mem_searched hc.large
    rw [hsplit, List.mem_append, List.mem_cons] at hsearched
    rcases hsearched with hlow | heq | hhigh
    · have hnone := List.find?_eq_none.mp (hlower _ hlow) c.1 (hcomplete c hc.mem hc.free)
      rw [sizeAt_of_mem htiles hc.mem] at hnone
      exact absurd (decide_eq_true hc.large) hnone
    · exact Nat.le_of_eq heq.symm
    · have hpairs := (List.pairwise_append.mp hsorted).2.1
      exact Nat.le_of_lt ((List.pairwise_cons.mp hpairs).1 _ hhigh)
  · have hsmall := hbefore c.1 hin
    rw [sizeAt_of_mem htiles hc.mem, decide_eq_true hc.large] at hsmall
    cases hsmall

/-- Above the bucket of the request the foremost block is the head of its list. -/
theorem Foremost.head (hf : Foremost cs ls size x) (hl : Listed cs ls)
    (hlt : Bucket.ofSize size < Bucket.ofSize x.2.size) :
    (ls (Bucket.ofSize x.2.size)).head? = some x.1 := by
  obtain ⟨before, after, hls, hbefore⟩ := hf.first
  rw [hls]
  cases before with
  | nil => rfl
  | cons y before =>
    obtain ⟨tag, hmem, hfree, hof⟩ := hl _ (Bucket.ofSize_lt x.2.size) y (by rw [hls]; simp)
    have hlarge : size ≤ tag.size := by
      refine Nat.le_of_not_lt fun hsmall => ?_
      have := Bucket.ofSize_mono (Nat.le_of_lt hsmall)
      omega
    exact absurd List.mem_cons_self (hbefore (y, tag) ⟨hmem, hfree, hlarge⟩)

/-- Outside the last bucket the foremost block is less than twice as large as any that fits. -/
theorem Foremost.lt_two_mul (hf : Foremost cs ls size x) {start stop : Nat}
    (ht : Tiles start cs stop) (hlast : Bucket.ofSize x.2.size + 1 < Bucket.count)
    {c : TaggedBlock} (hc : Fitting cs size c) : x.2.size < 2 * c.2.size :=
  Bucket.lt_two_mul hlast (ht.bounds hc.mem).2.2 (hf.lowest c hc)

/-- A well-formed heap can be read, if it lies in the store. -/
theorem Shape.legible (hs : h.Shape cs ls) (hroom : h.epilog ≤ h.size) : h.Legible cs ls :=
  ⟨hs.chain, hs.linked, hs.listed, fun _ => hs.nodup, hroom⟩

/-- On a heap that passes its check, first fit ends; it finds nothing exactly if every free block is
too small, and otherwise the foremost block that fits.  If the bucket of this is above that of the
request, it is the head of its list, and if it is not the last bucket, the block is less than twice
as large as any other that fits. -/
theorem firstFit_of_check (hcheck : h.check = .ok (.ok ())) (size : Nat) :
    ∃ (cs : List TaggedBlock) (lists : Nat → List Nat) (found : Option Nat),
      h.Shape cs lists ∧ (∀ b < Bucket.count, h.nodes b = .ok (lists b)) ∧
      h.firstFit size = .ok found ∧
      (found = none ↔ ∀ c ∈ cs, c.2.isFree → c.2.size < size) ∧
      ∀ offset, found = some offset → ∃ tag, Foremost cs lists size (offset, tag) ∧
        (Bucket.ofSize size < Bucket.ofSize tag.size →
          (lists (Bucket.ofSize tag.size)).head? = some offset) ∧
        (Bucket.ofSize tag.size + 1 < Bucket.count →
          ∀ c, Fitting cs size c → tag.size < 2 * c.2.size) := by
  obtain ⟨⟨cs, ls, hs⟩, hroom⟩ := wellFormed_of_check hcheck
  have hk := hs.legible (by simp only [epilogBytes] at hroom; omega)
  have htiles := hs.chain.tiles
  refine ⟨cs, ls, _, hs, fun _ => hk.nodes, hk.firstFit size, ⟨fun hnone c => ?_, fun hall => ?_⟩,
    fun offset hx => ?_⟩
  · exact hs.complete'.fit_eq_none htiles hnone
  · cases hx : fit cs ls size with
    | none => rfl
    | some offset =>
      obtain ⟨tag, hmem, hfree, -, hle⟩ := Listed.fit hs.listed htiles hx
      exact absurd (hall _ hmem hfree) (Nat.not_lt.mpr hle)
  · obtain ⟨tag, hf⟩ := hk.foremost hs.complete' hx
    exact ⟨tag, hf, hf.head hs.listed, fun hlast c => hf.lt_two_mul htiles hlast⟩

/-- The head of the list is too small for 24 bytes. -/
theorem firstFit_of_check_second :
    twoHoles.check = .ok (.ok ()) ∧ twoHoles.nodes 0 = .ok [152, 112] ∧
      ∃ cs lists tag, twoHoles.Shape cs lists ∧ twoHoles.firstFit 24 = .ok (some 112) ∧
        Foremost cs lists 24 (112, tag) := by
  have hfound : twoHoles.firstFit 24 = .ok (some 112) := by decide +kernel
  obtain ⟨cs, lists, found, hs, -, hfit, -, hsome⟩ := firstFit_of_check check_twoHoles 24
  obtain rfl := Except.ok.inj (hfound.symm.trans hfit)
  obtain ⟨tag, hf, -⟩ := hsome 112 rfl
  exact ⟨check_twoHoles, by decide +kernel, cs, lists, tag, hs, hfit, hf⟩

end Heap

end SegFit
