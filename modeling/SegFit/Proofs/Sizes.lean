/-
  Sizes are exact.  Computed on offsets of 64 bits, by masks, sums that may wrap around, leading
  zeros and shifts, block sizes and buckets are those of the arithmetic without bounds
  (`guardedBlockSizeFor_eq`, `guardedOfSize_eq`, `guardedFloor_eq`).  There the block size of a
  request is the least that can serve it, and a bucket has just the sizes from its floor up to the
  next (`sizes_exact`).
-/
import Mathlib.Order.Bounds.Basic
import SegFit.Guarded.Size
import SegFit.Proofs.FirstFit

namespace SegFit

/-! ## Fixed width -/

section FixedWidth

variable {m n : UInt64}

/-- A sum that is an offset does not wrap around. -/
theorem addOffsets_of_lt (h : m.toNat + n.toNat < offsetBound) :
    addOffsets m n = some (m + n) ∧ (m + n).toNat = m.toNat + n.toNat := by
  have hsum : (m + n).toNat = m.toNat + n.toNat := by
    rw [UInt64.toNat_add]
    exact Nat.mod_eq_of_lt h
  refine ⟨if_neg fun hlt => ?_, hsum⟩
  have := UInt64.lt_iff_toNat_lt.mp hlt
  omega

/-- Any other sum wraps around, to less than either summand. -/
theorem addOffsets_of_le (h : offsetBound ≤ m.toNat + n.toNat) : addOffsets m n = none := by
  refine if_pos (UInt64.lt_iff_toNat_lt.mpr ?_)
  have := m.toNat_lt
  have := n.toNat_lt
  rw [UInt64.toNat_add]
  simp only [offsetBound] at h
  omega

/-- Clearing the low bits rounds down to a multiple of the alignment. -/
theorem toNat_roundDown (n : UInt64) :
    (roundDown n).toNat = n.toNat / alignment * alignment := by
  -- The mask has ones at the places 3 to 63.
  have hmask : (~~~(.ofNat alignment - 1) : UInt64).toNat = (2 ^ 61 - 1) * 2 ^ 3 := by decide
  have hpower : n.toNat / alignment * alignment = n.toNat / 2 ^ 3 * 2 ^ 3 := rfl
  rw [roundDown, UInt64.toNat_and, hmask, hpower]
  refine Nat.eq_of_testBit_eq fun i => ?_
  rw [Nat.testBit_and, Nat.testBit_mul_two_pow, Nat.testBit_mul_two_pow, Nat.testBit_div_two_pow,
    Nat.testBit_two_pow_sub_one]
  by_cases hlow : i < 3
  · simp [Nat.not_le.mpr hlow]
  rw [Nat.sub_add_cancel (Nat.not_lt.mp hlow)]
  by_cases hhigh : i - 3 < 61
  · simp [Nat.not_lt.mp hlow, hhigh]
  · have hbit : n.toNat.testBit i = false :=
      Nat.testBit_lt_two_pow (Nat.lt_of_lt_of_le n.toNat_lt
        (Nat.pow_le_pow_right (by decide) (by omega)))
    simp [hbit]

theorem guardedAlignUp_eq (n : UInt64) : (guardedAlignUp n).map UInt64.toNat = alignUp n.toNat := by
  have hseven : (.ofNat alignment - 1 : UInt64).toNat = alignment - 1 := by decide
  unfold guardedAlignUp alignUp
  by_cases hfits : n.toNat + (alignment - 1) < offsetBound
  · obtain ⟨hadd, hsum⟩ := addOffsets_of_lt (hseven.symm ▸ hfits)
    rw [if_pos hfits, hadd, Option.map_some, Option.map_some, toNat_roundDown, hsum, hseven]
  · rw [if_neg hfits, addOffsets_of_le (hseven.symm ▸ Nat.not_lt.mp hfits)]
    rfl

/-- The block size of a request is the same in fixed width. -/
theorem guardedBlockSizeFor_eq (n : UInt64) :
    (guardedBlockSizeFor n).map UInt64.toNat = blockSizeFor n.toNat := by
  have height : (.ofNat overhead : UInt64).toNat = overhead := by decide
  have hmost : (roundDown (.ofNat maxWord)).toNat = maxBlock := by decide
  unfold guardedBlockSizeFor blockSizeFor
  rw [← guardedAlignUp_eq]
  cases guardedAlignUp n with
  | none => rfl
  | some payload =>
    simp only [Option.map_some, Option.bind_some, Option.bind_eq_bind]
    by_cases hfits : payload.toNat + overhead < offsetBound
    · obtain ⟨hadd, hsum⟩ := addOffsets_of_lt (n := .ofNat overhead) (height.symm ▸ hfits)
      rw [height] at hsum
      have hcompare : payload + .ofNat overhead ≤ roundDown (.ofNat maxWord) ↔
          payload.toNat + overhead ≤ maxBlock := by
        rw [UInt64.le_iff_toNat_le, hsum, hmost]
      rw [hadd, Option.bind_some]
      by_cases hle : payload.toNat + overhead ≤ maxBlock
      · rw [if_pos hle, if_pos (hcompare.mpr hle), Option.map_some, UInt64.toNat_max, hsum]
        rfl
      · rw [if_neg hle, if_neg (mt hcompare.mp hle)]
        rfl
    · have hlarge : ¬ payload.toNat + overhead ≤ maxBlock := by
        simp only [offsetBound, maxBlock] at *
        omega
      rw [if_neg hlarge, addOffsets_of_le (height.symm ▸ Nat.not_lt.mp hfits)]
      rfl

end FixedWidth

namespace Bucket

/-- The highest one is right below all its leading zeros. -/
theorem log2_toNat {n : UInt64} (hn : n ≠ 0) :
    leadingZeros n ≤ offsetBits - 1 ∧ n.toNat.log2 = offsetBits - 1 - leadingZeros n := by
  have hbits : n.toBitVec ≠ 0#64 := fun h => hn (UInt64.toBitVec_inj.mp h)
  have hclz : leadingZeros n < 64 := by
    have := BitVec.lt_def.mp (BitVec.clz_lt_iff_ne_zero.mpr hbits)
    simpa [leadingZeros] using this
  have hlow := BitVec.two_pow_sub_clz_le_toNat_of_ne_zero (by decide) hbits
  have hhigh := BitVec.toNat_lt_two_pow_sub_clz (x := n.toBitVec)
  have hpos : n.toNat ≠ 0 := fun h => hn (UInt64.toNat_inj.mp h)
  refine ⟨Nat.le_of_lt_succ hclz, (Nat.log2_eq_iff hpos).mpr ⟨hlow, ?_⟩⟩
  have hexponent : offsetBits - 1 - leadingZeros n + 1 = 64 - leadingZeros n := by
    simp only [offsetBits]
    omega
  exact hexponent ▸ hhigh

/-- The bucket of a size is the same in fixed width, and the difference in it exists. -/
theorem guardedOfSize_eq (size : UInt64) : guardedOfSize size = .ok (ofSize size.toNat) := by
  unfold guardedOfSize
  by_cases hzero : size = 0
  · subst hzero
    rfl
  · obtain ⟨hle, hlog⟩ := log2_toNat hzero
    rw [if_neg hzero, difference_of_le hle, ofSize, hlog]
    rfl

/-- The floor of a bucket is the same in fixed width, and no shift in it is too long. -/
theorem guardedFloor_eq (b : Nat) : UInt64.toNat <$> guardedFloor b = .ok (floor b) := by
  by_cases hb : b < count
  · revert b
    decide
  · rw [guardedFloor, floor, if_neg hb, if_neg hb]
    rfl

/-- A size reaches the floor of a bucket if its highest one does. -/
theorem floor_le_iff {size b : Nat} (hs : size ≠ 0) (hb : b < count) :
    floor b ≤ size ↔ 4 + b ≤ size.log2 := by
  rw [floor, if_pos hb, Nat.one_shiftLeft, Nat.le_log2 hs]

/-- A bucket holds the sizes from its floor up to the next, and the last all from its floor on. -/
theorem ofSize_eq_iff {size b : Nat} (hs : minBlock ≤ size) (hb : b < count) :
    ofSize size = b ↔ floor b ≤ size ∧ (b = count - 1 ∨ size < floor (b + 1)) := by
  have hpos : size ≠ 0 := Nat.ne_of_gt (Nat.lt_of_lt_of_le (by decide) hs)
  have hlog : 4 ≤ size.log2 := (Nat.le_log2 hpos).mpr hs
  rw [floor_le_iff hpos hb, ofSize]
  by_cases hlast : b = count - 1
  · simp only [hlast, count, true_or, and_true]
    omega
  · have hnext : b + 1 < count := by omega
    rw [← Nat.not_le, floor_le_iff hpos hnext]
    simp only [count] at *
    omega

end Bucket

/-! ## Block sizes -/

/-- The sizes of the blocks that could serve a request of `n` bytes, whatever a tag can hold. -/
def servingSizes (n : Nat) : Set Nat :=
  {size | alignment ∣ size ∧ max (n + overhead) minBlock ≤ size}

/-- The least of them is the payload, rounded up, with two tags, and at least the least block. -/
theorem isLeast_servingSizes (n : Nat) : IsLeast (servingSizes n)
    (max ((n + (alignment - 1)) / alignment * alignment + overhead) minBlock) := by
  simp only [alignment, overhead, minBlock]
  refine ⟨⟨?_, ?_⟩, fun size ⟨hdvd, hle⟩ => ?_⟩
  · simp only [alignment]
    omega
  · simp only [overhead, minBlock]
    omega
  · simp only [alignment, overhead, minBlock] at hdvd hle
    omega

/-- The block size for a request is the least that can serve it, if a tag can hold this. -/
theorem blockSizeFor_of_isLeast {n least : Nat} (h : IsLeast (servingSizes n) least) :
    blockSizeFor n = if least ≤ maxBlock then some least else none := by
  obtain rfl := h.unique (isLeast_servingSizes n)
  unfold blockSizeFor alignUp
  simp only [alignment, overhead, minBlock, maxBlock, offsetBound]
  by_cases hfits : n + (8 - 1) < 0x10000000000000000
  · -- The least block is smaller than the largest, so it does not matter when it is compared.
    have hcompare : max ((n + (8 - 1)) / 8 * 8 + 8) 16 ≤ 0xFFFFFFF8 ↔
        (n + (8 - 1)) / 8 * 8 + 8 ≤ 0xFFFFFFF8 := by omega
    rw [if_pos hfits, Option.bind_some, if_congr hcompare rfl rfl]
  · rw [if_neg hfits, if_neg (by omega)]
    rfl

/-- A smaller request needs no larger block. -/
theorem blockSizeFor_mono {m n size : Nat} (hle : m ≤ n) (h : blockSizeFor n = some size) :
    ∃ s ≤ size, blockSizeFor m = some s := by
  have hm := isLeast_servingSizes m
  have hn := isLeast_servingSizes n
  rw [blockSizeFor_of_isLeast hn] at h
  split at h
  · rename_i hmost
    obtain rfl := Option.some.inj h
    obtain ⟨hdvd, hserves⟩ := hn.1
    have hleast := hm.2 ⟨hdvd, by omega⟩
    exact ⟨_, hleast, by rw [blockSizeFor_of_isLeast hm, if_pos (Nat.le_trans hleast hmost)]⟩
  · cases h

/-- Sizes are computed exactly.  In fixed width no sum goes wrong, no difference is negative and no
shift too long: block sizes, buckets and floors are those of the arithmetic without bounds.  A
request gets the least multiple of eight that holds it and two tags and is a block, if a tag can
hold this, and otherwise no size; and a bucket has exactly the sizes from its floor up to the next.
Both are monotone. -/
theorem sizes_exact :
    (∀ n : UInt64, (guardedBlockSizeFor n).map UInt64.toNat = blockSizeFor n.toNat) ∧
    (∀ size : UInt64, Bucket.guardedOfSize size = .ok (Bucket.ofSize size.toNat)) ∧
    (∀ b, UInt64.toNat <$> Bucket.guardedFloor b = .ok (Bucket.floor b)) ∧
    (∀ n, ∃ least, IsLeast (servingSizes n) least ∧
      blockSizeFor n = if least ≤ maxBlock then some least else none) ∧
    (∀ m n size, m ≤ n → blockSizeFor n = some size → ∃ s ≤ size, blockSizeFor m = some s) ∧
    (∀ size b, minBlock ≤ size → b < Bucket.count → (Bucket.ofSize size = b ↔
      Bucket.floor b ≤ size ∧ (b = Bucket.count - 1 ∨ size < Bucket.floor (b + 1)))) ∧
    (∀ m n, m ≤ n → Bucket.ofSize m ≤ Bucket.ofSize n) :=
  ⟨guardedBlockSizeFor_eq, Bucket.guardedOfSize_eq, Bucket.guardedFloor_eq,
    fun n => ⟨_, isLeast_servingSizes n, blockSizeFor_of_isLeast (isLeast_servingSizes n)⟩,
    fun _ _ _ => blockSizeFor_mono, fun _ _ => Bucket.ofSize_eq_iff,
    fun _ _ => Bucket.ofSize_mono⟩

/-- The largest request that a tag can hold, the one after it, and the ends of the last bucket but
one. -/
theorem sizes_exact_largest :
    0xFFFFFFEF ≤ 0xFFFFFFF0 ∧ blockSizeFor 0xFFFFFFF0 = some 0xFFFFFFF8 ∧
      (∃ s ≤ 0xFFFFFFF8, blockSizeFor 0xFFFFFFEF = some s) ∧
      (guardedBlockSizeFor 0xFFFFFFF1).map UInt64.toNat = none ∧
      (guardedBlockSizeFor 0xFFFFFFFFFFFFFFF9).map UInt64.toNat = none ∧
      minBlock ≤ 0xFFFF ∧ Bucket.ofSize 0xFFFF = 11 ∧
      Bucket.guardedOfSize 0x8000 = .ok 11 ∧ Bucket.ofSize 0xFFFF ≤ Bucket.ofSize 0x10000 := by
  obtain ⟨hsize, hbucket, -, -, hmono, hexact, hbuckets⟩ := sizes_exact
  have hlarge : blockSizeFor 0xFFFFFFF0 = some 0xFFFFFFF8 := by decide
  have hof : Bucket.ofSize 0x8000 = 11 :=
    (hexact 0x8000 11 (by decide) (by decide)).mpr ⟨by decide, .inr (by decide)⟩
  exact ⟨by decide, hlarge, hmono _ _ _ (by decide) hlarge, (hsize _).trans (by decide),
    (hsize _).trans (by decide), by decide,
    (hexact 0xFFFF 11 (by decide) (by decide)).mpr ⟨by decide, .inr (by decide)⟩,
    (hbucket 0x8000).trans (congrArg _ hof), hbuckets _ _ (by decide)⟩

end SegFit
