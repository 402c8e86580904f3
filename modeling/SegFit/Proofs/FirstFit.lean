/-
  What first fit finds.  In a legible heap the search over the bytes is that over the
  lists (`Legible.firstFit`): the first block that is large enough, by bucket and then by place
  on the list.  It misses nothing, since no bucket below that of the request holds a block
  large enough (`Complete.fit_eq_none`).
-/
import SegFit.Heap.Acquire
import SegFit.Proofs.Neighbours

namespace SegFit

namespace Bucket

variable {m n : Nat}

theorem ofSize_mono (h : m ≤ n) : ofSize m ≤ ofSize n := by
  have hlog : m.log2 ≤ n.log2 := by
    rcases Nat.eq_zero_or_pos m with rfl | hm
    · simp
    · exact (Nat.le_log2 (by omega)).mpr (Nat.le_trans (Nat.log2_self_le (by omega)) h)
  simp only [ofSize]
  omega

/-- A search for `m` bytes comes to the bucket of every larger size. -/
theorem mem_searched (h : m ≤ n) : ofSize n ∈ (List.range count).drop (ofSize m) := by
  have h1 := ofSize_mono h
  have h2 := ofSize_lt n
  rw [List.mem_drop_iff_getElem]
  exact ⟨ofSize n - ofSize m, by simp only [List.length_range]; omega,
    by rw [List.getElem_range]; omega⟩

end Bucket

namespace Memory

/-- A search over linked nodes is one over the list of them. -/
theorem search_of_linked {m : Memory} {tail size : Nat} {f : Nat → Nat} (ns : List Nat)
    (node n : Nat) (hl : m.Linked (node :: ns ++ [tail])) (ht : tail ∉ ns)
    (hb : ∀ x ∈ ns, x + nodeSize ≤ m.size) (hf : ∀ x ∈ ns, m.blockSize x = .ok (f x))
    (hn : ns.length < n) :
    m.search tail size n (m.succLink node) = .ok (ns.find? fun x => size ≤ f x) := by
  induction ns generalizing node n with
  | nil =>
    have h : m.succLink node = tail := hl.1
    obtain ⟨n, rfl⟩ : ∃ k, n = k + 1 := ⟨n - 1, by simp at hn; omega⟩
    rw [search, if_pos h]
    rfl
  | cons x rest ih =>
    have h : m.succLink node = x := hl.1
    have hx : x ≠ tail := fun he => ht (he ▸ List.mem_cons_self)
    obtain ⟨n, rfl⟩ : ∃ k, n = k + 1 := ⟨n - 1, by simp at hn; omega⟩
    have hr := ih x n hl.2.2 (fun hm => ht (List.mem_cons_of_mem _ hm))
      (fun y hy => hb y (List.mem_cons_of_mem _ hy))
      (fun y hy => hf y (List.mem_cons_of_mem _ hy)) (by simpa using hn)
    rw [h, search, if_neg hx, succ_of_le (hb x List.mem_cons_self), ok_bind,
      hf x List.mem_cons_self, ok_bind, List.find?_cons]
    by_cases hs : size ≤ f x
    · rw [if_pos hs, decide_eq_true hs]
      rfl
    · rw [if_neg hs, decide_eq_false hs]
      exact hr

end Memory

namespace Heap

variable {h : Heap} {cs : List TaggedBlock} {ls : Nat → List Nat}

/-- The size of the block at `x`. -/
def sizeAt (cs : List TaggedBlock) (x : Nat) : Nat :=
  ((cs.find? fun b => b.1 = x).map fun b => b.2.size).getD 0

theorem sizeAt_of_mem {start stop : Nat} (ht : Tiles start cs stop) {b : TaggedBlock}
    (hb : b ∈ cs) : sizeAt cs b.1 = b.2.size := by
  obtain ⟨c, hc⟩ : ∃ c, cs.find? (fun c => c.1 = b.1) = some c :=
    Option.isSome_iff_exists.mp (List.find?_isSome.mpr ⟨b, hb, by simp⟩)
  have ho : c.1 = b.1 := by simpa using List.find?_some hc
  have he : c = b := ht.eq_of_offset (List.mem_of_find?_eq_some hc) hb ho
  rw [sizeAt, hc, he]
  rfl

/-- The block on the lists that first fit chooses for `size` bytes. -/
def fit (cs : List TaggedBlock) (ls : Nat → List Nat) (size : Nat) : Option Nat :=
  ((List.range Bucket.count).drop (Bucket.ofSize size)).findSome? fun b =>
    (ls b).find? fun x => size ≤ sizeAt cs x

/-- What first fit chooses is a free block on the list of its bucket, large enough. -/
theorem Listed.fit (hl : Listed cs ls) {start stop : Nat} (ht : Tiles start cs stop)
    {size x : Nat} (hx : Heap.fit cs ls size = some x) :
    ∃ tag, (x, tag) ∈ cs ∧ tag.isFree ∧ x ∈ ls (Bucket.ofSize tag.size) ∧ size ≤ tag.size := by
  obtain ⟨b, hb, hf⟩ := List.exists_of_findSome?_eq_some hx
  have hlt : b < Bucket.count := List.mem_range.mp (List.mem_of_mem_drop hb)
  have hmem := List.mem_of_find?_eq_some hf
  obtain ⟨tag, hm, hfree, hof⟩ := hl b hlt x hmem
  refine ⟨tag, hm, hfree, hof ▸ hmem, ?_⟩
  have hle : size ≤ sizeAt cs x := by simpa using List.find?_some hf
  rwa [sizeAt_of_mem ht hm] at hle

/-- When first fit finds nothing, every free block is too small. -/
theorem Complete.fit_eq_none (hc : Complete cs ls) {start stop : Nat} (ht : Tiles start cs stop)
    {size : Nat} (hx : Heap.fit cs ls size = none) {b : TaggedBlock} (hb : b ∈ cs)
    (hf : b.2.isFree) : b.2.size < size := by
  refine Nat.lt_of_not_le fun hle => ?_
  have hnone := List.findSome?_eq_none_iff.mp hx _ (Bucket.mem_searched hle)
  have := List.find?_eq_none.mp hnone b.1 (hc b hb hf)
  rw [sizeAt_of_mem ht hb] at this
  exact this (decide_eq_true hle)

/-! ## Reading the lists -/

namespace Legible

variable (hk : h.Legible cs ls) {b : Nat} (hb : b < Bucket.count)
include hk hb

theorem inside {x : Nat} (hx : x ∈ ls b) : x + minBlock ≤ h.epilog + wordSize := by
  obtain ⟨tag, hm, -⟩ := hk.listed b hb x hx
  have := hk.chain.bounds hm
  simp only at this
  omega

theorem epilogNode_not_mem : h.epilogNode b ∉ ls b := by
  intro hm
  have := hk.inside hb hm
  simp only [epilogNode, minBlock] at this
  omega

theorem node_le {x : Nat} (hx : x ∈ ls b) : x + nodeSize ≤ h.size := by
  have := hk.inside hb hx
  have := hk.room
  simp only [minBlock, nodeSize, wordSize] at *
  omega

theorem prologNode_le : prologNode b + nodeSize ≤ h.size := by
  have := hk.chain.firstHeader_le
  have := hk.room
  simp only [prologNode, firstHeader, prologEnd, nodeSize, wordSize, Bucket.count] at *
  omega

theorem nodes : h.nodes b = .ok (ls b) :=
  nodes_of_holds (hk.linked b hb) (hk.nodup b hb) (hk.prologNode_le hb) (hk.epilogNode_not_mem hb)
    fun _ => hk.node_le hb

/-- A search in one bucket. -/
theorem searchBucket (size : Nat) :
    h.searchBucket size b = .ok ((ls b).find? fun x => size ≤ sizeAt cs x) := by
  have hlen := length_le_of_nodup (hk.nodup b hb) fun _ => hk.node_le hb
  unfold Heap.searchBucket
  rw [Memory.succ_of_le (hk.prologNode_le hb), ok_bind]
  refine Memory.search_of_linked (ls b) (prologNode b) _ (hk.linked b hb)
    (hk.epilogNode_not_mem hb) (fun x hx => hk.node_le hb hx) (fun x hx => ?_)
    (Nat.lt_succ_of_le hlen)
  obtain ⟨tag, hm, -⟩ := hk.listed b hb x hx
  rw [sizeAt_of_mem hk.chain.tiles hm]
  exact hk.blockSize hm

omit hb

theorem searchBuckets (size : Nat) (bs : List Nat) (hbs : ∀ b ∈ bs, b < Bucket.count) :
    h.searchBuckets size bs =
      .ok (bs.findSome? fun b => (ls b).find? fun x => size ≤ sizeAt cs x) := by
  induction bs with
  | nil => rfl
  | cons b bs ih =>
    have hb := hbs b List.mem_cons_self
    have hr := ih fun c hc => hbs c (List.mem_cons_of_mem b hc)
    unfold Heap.searchBuckets
    rw [hk.searchBucket hb, ok_bind, List.findSome?_cons]
    cases (ls b).find? fun x => size ≤ sizeAt cs x with
    | none => exact hr
    | some x => rfl

/-- First fit searches the lists. -/
theorem firstFit (size : Nat) : h.firstFit size = .ok (fit cs ls size) :=
  hk.searchBuckets size _ fun _ hb => List.mem_range.mp (List.mem_of_mem_drop hb)

end Legible

theorem Consistent.firstFit (hk : h.Consistent cs ls) (size : Nat) :
    h.firstFit size = .ok (fit cs ls size) :=
  hk.legible.firstFit size

end Heap

end SegFit
