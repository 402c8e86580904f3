/-
  The figures on a heap.  A walk over the blocks, a walk over the lists and the counters of the
  allocator are three accounts of the same heap: the occupancy counts what the counters count,
  and each list holds the free blocks of its bucket, every one once
  (`Reachable.figures_agree`).
-/
import Mathlib.Data.List.Nodup
import SegFit.Proofs.GuardedRuns

namespace SegFit

open Heap

variable {cs : List TaggedBlock} {b : TaggedBlock}

/-! ## Free blocks of a tiling -/

/-- The free blocks of `cs`. -/
def vacancies (cs : List TaggedBlock) : List TaggedBlock :=
  cs.filter fun b => b.2.isFree

theorem mem_vacancies : b ∈ vacancies cs ↔ b ∈ cs ∧ b.2.isFree := by
  simp [vacancies]

/-- A block is allocated or free. -/
theorem bytesOf_allocations_add_vacancies (cs : List TaggedBlock) :
    bytesOf (allocations cs) + bytesOf (vacancies cs) = bytesOf cs := by
  induction cs with
  | nil => rfl
  | cons b cs ih =>
    simp only [bytesOf, allocations, vacancies, Tag.isFree, List.filter_cons, List.map_cons,
      List.sum_cons] at *
    cases b.2.status <;> simp <;> omega

/-- The offsets of the blocks differ. -/
theorem Tiles.offsets_nodup {start stop : Nat} (h : Tiles start cs stop) :
    (cs.map Prod.fst).Nodup :=
  List.Nodup.map_on (fun _ hb _ hc he => h.eq_of_offset hb hc he) h.nodup

namespace Heap

variable {h : Heap} {ls : Nat → List Nat}

/-! ## Lists -/

/-- A list holds the free blocks of its bucket. -/
theorem Sound.mem_list (hs : h.Sound cs ls) {k x : Nat} (hb : k < Bucket.count) :
    x ∈ ls k ↔ ∃ b ∈ vacancies cs, Bucket.ofSize b.2.size = k ∧ b.1 = x := by
  rw [hs.shape.mem_list hb]
  constructor
  · rintro ⟨tag, hm, hf, hof⟩
    exact ⟨_, mem_vacancies.mpr ⟨hm, hf⟩, hof, rfl⟩
  · rintro ⟨b, hbv, hof, rfl⟩
    obtain ⟨hm, hf⟩ := mem_vacancies.mp hbv
    exact ⟨b.2, hm, hf, hof⟩

/-- Each of them is on it once. -/
theorem Sound.list_perm (hs : h.Sound cs ls) {k : Nat} (hb : k < Bucket.count) :
    (ls k).Perm (((vacancies cs).filter fun b => Bucket.ofSize b.2.size = k).map Prod.fst) := by
  refine (List.perm_ext_iff_of_nodup (hs.shape.nodup hb) ?_).mpr fun x => ?_
  · refine hs.chain.tiles.offsets_nodup.sublist (List.Sublist.map _ ?_)
    exact List.filter_sublist.trans List.filter_sublist
  · rw [hs.mem_list hb, List.mem_map]
    constructor
    · rintro ⟨b, hb, hof, rfl⟩
      exact ⟨b, List.mem_filter.mpr ⟨hb, decide_eq_true hof⟩, rfl⟩
    · rintro ⟨b, hb, rfl⟩
      obtain ⟨hb, hof⟩ := List.mem_filter.mp hb
      exact ⟨b, hb, of_decide_eq_true hof, rfl⟩

/-! ## Occupancy -/

/-- The size of the largest block of `cs`, zero if there is none. -/
def largestOf (cs : List TaggedBlock) : Nat :=
  (cs.map fun b => b.2.size).max?.getD 0

theorem le_largestOf (hb : b ∈ cs) : b.2.size ≤ largestOf cs :=
  List.le_max?_getD_of_mem (List.mem_map_of_mem hb)

/-- The largest size is that of a block. -/
theorem exists_largestOf (hne : cs ≠ []) : ∃ b ∈ cs, b.2.size = largestOf cs := by
  cases hmax : (cs.map fun b => b.2.size).max? with
  | none => exact absurd (List.map_eq_nil_iff.mp (List.max?_eq_none_iff.mp hmax)) hne
  | some n =>
    obtain ⟨b, hb, rfl⟩ := List.mem_map.mp (List.max?_mem hmax)
    exact ⟨b, hb, by rw [largestOf, hmax]; rfl⟩

/-- The figures on the blocks that a walk has found. -/
theorem occupancy_views (m : Memory) (size : Nat) (cs : List TaggedBlock) :
    Occupancy.ofBlocks size (cs.map (viewOf m)) =
      ⟨size, (allocations cs).length, bytesOf (allocations cs), (vacancies cs).length,
        bytesOf (vacancies cs), largestOf (vacancies cs),
        (List.range Bucket.count).map fun k =>
          ((vacancies cs).filter fun b => Bucket.ofSize b.2.size = k).length⟩ := by
  have hfree : (cs.map (viewOf m)).filter Block.isFree = (vacancies cs).map (viewOf m) :=
    List.filter_map
  have halloc : (cs.map (viewOf m)).filter (fun b => !b.isFree) =
      (allocations cs).map (viewOf m) := by
    rw [List.filter_map, allocations]
    congr 2
    funext b
    cases hb : b.2.status <;> simp [Block.isFree, viewOf, hb]
  have hsizes : ∀ bs : List TaggedBlock,
      (bs.map (viewOf m)).map Block.size = bs.map fun b => b.2.size :=
    fun bs => List.map_map
  simp only [Occupancy.ofBlocks, hfree, halloc, hsizes, List.length_map, ← List.sum_eq_foldl,
    List.foldl_max, List.countP_eq_length_filter, List.filter_map, Nat.zero_max]
  rfl

end Heap

namespace Allocator

variable {a : Allocator} {ls : Nat → List Nat} {live : List Nat} {settings : Settings}

/-- The figures on a sound heap. -/
theorem occupancy_eq (hs : a.heap.Sound cs ls) :
    a.occupancy = .ok ⟨a.heap.size, (allocations cs).length, bytesOf (allocations cs),
      (vacancies cs).length, bytesOf (vacancies cs), largestOf (vacancies cs),
      (List.range Bucket.count).map fun k =>
        ((vacancies cs).filter fun b => Bucket.ofSize b.2.size = k).length⟩ := by
  rw [occupancy, Heap.occupancy, hs.consistent.blocks, ← occupancy_views a.heap.mem]
  rfl

/-- In a state that clients can reach, the counters are the figures on the live allocations. -/
theorem Reachable.audited (h : Reachable settings a live) :
    ∃ cs ls, a.Tracks live cs ls ∧ a.heap.Exact cs ∧ a.Tally cs := by
  obtain ⟨cs, ls, ht, he⟩ := h.tracks
  obtain ⟨cs', _, ht', hc, -⟩ := h.strained.1.tracks
  obtain rfl := ht'.sound.chain.unique ht.sound.chain
  exact ⟨_, ls, ht, he, hc⟩

/-- In every state that clients can reach, the walk over the blocks, the walks over the lists and
the counters agree. -/
theorem Reachable.figures_agree (h : Reachable settings a live) :
    ∃ (bs : List Block) (s : Occupancy) (nodes : Nat → List Nat),
      a.blocks = .ok bs ∧ a.occupancy = .ok s ∧
      (∀ b < Bucket.count, a.heap.nodes b = .ok (nodes b)) ∧
      s.allocatedBlocks = a.liveBlocks ∧ s.allocatedBytes = a.liveBytes ∧
      (∀ b < Bucket.count, s.freeByBucket[b]? = some (nodes b).length ∧
        ∀ x, x ∈ nodes b ↔
          ∃ block ∈ bs, block.isFree ∧ Bucket.ofSize block.size = b ∧ block.offset = x) ∧
      ((∀ b < Bucket.count, ∀ x ∈ nodes b,
          ∃ n, a.heap.mem.blockSize x = .ok n ∧ n ≤ s.largestFree) ∧
        ((∃ b < Bucket.count, ∃ x ∈ nodes b, a.heap.mem.blockSize x = .ok s.largestFree) ∨
          (∀ b < Bucket.count, nodes b = []) ∧ s.largestFree = 0)) ∧
      s.heapSize = a.heap.size ∧ a.heap.size = emptySize + s.allocatedBytes + s.freeBytes := by
  obtain ⟨cs, ls, ⟨hs, -⟩, -, hc⟩ := h.audited
  have hk := hs.consistent
  refine ⟨_, _, ls, hk.blocks, occupancy_eq hs, fun _ => hk.nodes, hc.blocks.symm, hc.bytes.symm,
    fun k hb => ⟨?_, fun x => ?_⟩, ⟨fun k hb x hx => ?_, ?_⟩, rfl, ?_⟩
  · rw [List.getElem?_map, List.getElem?_range hb, Option.map_some, (hs.list_perm hb).length_eq,
      List.length_map]
  · rw [hs.mem_list hb]
    constructor
    · rintro ⟨b, hb, hof, rfl⟩
      obtain ⟨hm, hf⟩ := mem_vacancies.mp hb
      exact ⟨viewOf a.heap.mem b, List.mem_map_of_mem hm, hf, hof, rfl⟩
    · rintro ⟨block, hblock, hf, hof, rfl⟩
      obtain ⟨b, hm, rfl⟩ := List.mem_map.mp hblock
      exact ⟨b, mem_vacancies.mpr ⟨hm, hf⟩, hof, rfl⟩
  · obtain ⟨b, hb, -, rfl⟩ := (hs.mem_list hb).mp hx
    exact ⟨_, hk.blockSize (mem_vacancies.mp hb).1, le_largestOf hb⟩
  · by_cases hne : vacancies cs = []
    · refine .inr ⟨fun k hb => List.eq_nil_iff_forall_not_mem.mpr fun x hx => ?_, ?_⟩
      · obtain ⟨b, hb, -⟩ := (hs.mem_list hb).mp hx
        simp [hne] at hb
      · show largestOf (vacancies cs) = 0
        rw [hne]
        rfl
    · obtain ⟨b, hb, hsize⟩ := exists_largestOf hne
      refine .inl ⟨_, Bucket.ofSize_lt b.2.size, b.1, ?_, ?_⟩
      · exact (hs.mem_list (Bucket.ofSize_lt _)).mpr ⟨b, hb, rfl, rfl⟩
      · rw [hk.blockSize (mem_vacancies.mp hb).1, hsize]
  · have htiles := hs.chain.tiles.bytesOf_eq
    have hsum := bytesOf_allocations_add_vacancies cs
    have hspan := hs.span
    simp only [firstBlock, emptySize, epilogBytes, prologEnd, overhead, nodeSize, wordSize,
      Bucket.count] at *
    omega

/-- Two allocations, and two free blocks of different buckets. -/
theorem figures_session :
    ∃ a, session {} cutUp = some (a, [192, 176]) ∧
      ∃ (s : Occupancy) (nodes : Nat → List Nat), a.occupancy = .ok s ∧
        s.allocatedBlocks = a.liveBlocks ∧ s.allocatedBytes = a.liveBytes ∧
        (∀ b < Bucket.count, a.heap.nodes b = .ok (nodes b) ∧
          s.freeByBucket[b]? = some (nodes b).length) ∧
        (∀ x, x ∈ nodes 1 ↔ x = 208) ∧ (∀ x, x ∈ nodes 2 ↔ x = 112) ∧
        (∃ n, a.heap.mem.blockSize 112 = .ok n ∧ n ≤ s.largestFree) ∧
        a.heap.size = emptySize + s.allocatedBytes + s.freeBytes := by
  obtain ⟨a, hrun, hblocks, -⟩ := session_cutUp
  obtain ⟨bs, s, nodes, hbs, hocc, hnodes, hcount, hbytes, hlists, ⟨hlargest, -⟩, -, hsize⟩ :=
    Reachable.figures_agree (.of_session hrun)
  obtain rfl := Except.ok.inj (hblocks.symm.trans hbs)
  have hsmall : Bucket.ofSize 32 = 1 := by decide
  have hlarge : Bucket.ofSize 64 = 2 := by decide
  have hfirst : ∀ x, x ∈ nodes 2 ↔ x = 112 := by
    intro x
    rw [(hlists 2 (by decide)).2]
    simp [Block.isFree, hsmall, hlarge, eq_comm]
  refine ⟨a, hrun, s, nodes, hocc, hcount, hbytes, fun b hb => ⟨hnodes b hb, (hlists b hb).1⟩,
    fun x => ?_, hfirst, hlargest 2 (by decide) 112 ((hfirst 112).mpr rfl), hsize⟩
  rw [(hlists 1 (by decide)).2]
  simp [Block.isFree, hsmall, hlarge, eq_comm]

end Allocator

end SegFit
