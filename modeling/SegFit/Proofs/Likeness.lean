/-
  Heaps that are alike.  Blocks and lists determine every word that allocation reads: the tags
  (`tagWord_eq`), and the links of sentinels and free blocks (`linkWord_eq`).  So two heaps with
  the same blocks and lists do the same (`lockstep_alike`), whatever else their bytes are, and
  writing into a payload leaves them alike (`Alike.write_left`).
-/
import SegFit.Proofs.Lockstep

namespace SegFit

/-- The links of linked nodes are determined by the list. -/
theorem Memory.Linked.links_eq {m n : Memory} :
    ∀ {l : List Nat}, m.Linked l → n.Linked l →
      (∀ x ∈ l.dropLast, m.succLink x = n.succLink x) ∧
        ∀ x ∈ l.tail, m.predLink x = n.predLink x
  | [], _, _ => ⟨by simp, by simp⟩
  | [_], _, _ => ⟨by simp, by simp⟩
  | x :: y :: rest, ⟨hsucc, hpred, hrest⟩, ⟨hsucc', hpred', hrest'⟩ => by
    obtain ⟨hs, hp⟩ := hrest.links_eq hrest'
    refine ⟨fun z hz => ?_, fun z hz => ?_⟩
    · rcases List.mem_cons.mp hz with rfl | hz
      · exact hsucc.trans hsucc'.symm
      · exact hs z hz
    · rcases List.mem_cons.mp hz with rfl | hz
      · exact hpred.trans hpred'.symm
      · exact hp z hz

namespace Heap

variable {h k : Heap} {cs cs' : List TaggedBlock} {ls ls' : Nat → List Nat} {x : TaggedBlock}

/-! ## Words of the structure -/

/-- Word `i` is a tag of one of the blocks, or the zero word before the first one or after the
last one. -/
def TagWord (h : Heap) (bs : List Block) (i : Nat) : Prop :=
  i = prologEnd ∨ i = h.epilog ∨
    ∃ b ∈ bs, i = b.offset - wordSize ∨ i = b.offset + b.size - overhead

/-- Word `i` is a link of a sentinel or of a free block. -/
def LinkWord (h : Heap) (bs : List Block) (i : Nat) : Prop :=
  (∃ b < Bucket.count, i = prologNode b ∨ i = prologNode b + wordSize ∨ i = h.epilogNode b ∨
    i = h.epilogNode b + wordSize) ∨
    ∃ b ∈ bs, b.isFree ∧ (i = b.offset ∨ i = b.offset + wordSize)

/-- From the epilog header on, a byte is in this header, in a link of an epilog node or behind the
end of the store. -/
theorem Sound.inWord_of_epilog_le (hs : h.Sound cs ls) (bs : List Block) {j : Nat}
    (hj : h.epilog ≤ j) :
    InWord h.epilog j ∨ (∃ i, h.LinkWord bs i ∧ InWord i j) ∨ h.size ≤ j := by
  have hspan := hs.span
  by_cases hlt : j < h.epilog + wordSize
  · exact .inl ⟨hj, hlt⟩
  by_cases hsize : h.size ≤ j
  · exact .inr (.inr hsize)
  -- The sentinel that byte `j` belongs to.
  obtain ⟨k, hk, hle, hlt⟩ : ∃ k < Bucket.count,
      h.epilogNode k ≤ j ∧ j < h.epilogNode k + nodeSize := by
    refine ⟨(j - (h.epilog + wordSize)) / nodeSize, ?_, ?_, ?_⟩ <;>
    · simp only [epilogNode, epilogBytes, nodeSize, wordSize, Bucket.count] at *
      omega
  refine .inr (.inl ?_)
  by_cases hpred : j < h.epilogNode k + wordSize
  · exact ⟨_, .inl ⟨k, hk, .inr (.inr (.inl rfl))⟩, hle, hpred⟩
  · refine ⟨_, .inl ⟨k, hk, .inr (.inr (.inr rfl))⟩, Nat.le_of_not_lt hpred, ?_⟩
    simp only [nodeSize, wordSize] at *
    omega

/-- Blocks determine their tags. -/
theorem tagWord_eq (hs : h.Sound cs ls) (hs' : k.Sound cs ls') (he : h.Exact cs) (he' : k.Exact cs)
    {i : Nat} (hi : h.TagWord (cs.map (viewOf h.mem)) i) : h.mem.word i = k.mem.word i := by
  rcases hi with rfl | rfl | ⟨_, hb, hi⟩
  · exact he.prologFooter.trans he'.prologFooter.symm
  · rw [hs.chain.zero, (hs.extent_eq hs').1, hs'.chain.zero]
  · obtain ⟨x, hx, rfl⟩ := List.mem_map.mp hb
    rcases hi with rfl | rfl
    · exact (he.headers x hx).trans (he'.headers x hx).symm
    · exact (hs.chain.marked hx).footer.trans (hs'.chain.marked hx).footer.symm

section

variable (hs : h.Sound cs ls) (hs' : k.Sound cs ls)
include hs hs'

/-- Lists determine the links along them. -/
theorem Sound.strand_eq {b : Nat} (hb : b < Bucket.count) :
    (∀ x ∈ prologNode b :: ls b, h.mem.succLink x = k.mem.succLink x) ∧
      ∀ x ∈ ls b ++ [h.epilogNode b], h.mem.predLink x = k.mem.predLink x := by
  have hend : k.epilogNode b = h.epilogNode b := by
    rw [epilogNode, epilogNode, (hs.extent_eq hs').1]
  have hl' : k.mem.Linked (prologNode b :: ls b ++ [h.epilogNode b]) :=
    hend ▸ hs'.shape.linked b hb
  obtain ⟨hsucc, hpred⟩ := (hs.shape.linked b hb).links_eq hl'
  rw [List.dropLast_concat] at hsucc
  exact ⟨hsucc, hpred⟩

/-- The links of a free block. -/
theorem Sound.links_eq (hx : x ∈ cs) (hf : x.2.isFree) :
    h.mem.predLink x.1 = k.mem.predLink x.1 ∧ h.mem.succLink x.1 = k.mem.succLink x.1 := by
  obtain ⟨hsucc, hpred⟩ := hs.strand_eq hs' (Bucket.ofSize_lt x.2.size)
  have hm := hs.complete x hx hf
  exact ⟨hpred _ (List.mem_append_left _ hm), hsucc _ (List.mem_cons_of_mem _ hm)⟩

/-- Walks over the blocks find the same. -/
theorem Sound.views_eq : cs.map (viewOf h.mem) = cs.map (viewOf k.mem) := by
  refine List.map_congr_left fun x hx => ?_
  by_cases hf : x.2.isFree
  · obtain ⟨hpred, hsucc⟩ := hs.links_eq hs' hx hf
    rw [viewOf, viewOf, hpred, hsucc]
  · rw [viewOf, viewOf, if_neg hf, if_neg hf]

/-- Blocks and lists determine all links. -/
theorem linkWord_eq (he : h.Exact cs) (he' : k.Exact cs) {i : Nat}
    (hi : h.LinkWord (cs.map (viewOf h.mem)) i) : h.mem.word i = k.mem.word i := by
  rcases hi with ⟨b, hb, hi⟩ | ⟨_, hv, hf, hi⟩
  · obtain ⟨hsucc, hpred⟩ := hs.strand_eq hs' hb
    have hend : k.epilogNode b = h.epilogNode b := by
      rw [epilogNode, epilogNode, (hs.extent_eq hs').1]
    rcases hi with rfl | rfl | rfl | rfl
    · exact UInt32.toNat_inj.mp ((he.prologPred b hb).trans (he'.prologPred b hb).symm)
    · exact UInt32.toNat_inj.mp (hsucc _ List.mem_cons_self)
    · exact UInt32.toNat_inj.mp (hpred _ (by simp))
    · exact UInt32.toNat_inj.mp ((he.epilogSucc b hb).trans (hend ▸ he'.epilogSucc b hb).symm)
  · obtain ⟨x, hx, rfl⟩ := List.mem_map.mp hv
    obtain ⟨hpred, hsucc⟩ := hs.links_eq hs' hx hf
    rcases hi with rfl | rfl
    · exact UInt32.toNat_inj.mp hpred
    · exact UInt32.toNat_inj.mp hsucc

/-- Blocks and lists determine every byte that carries structure. -/
theorem structByte_eq (he : h.Exact cs) (he' : k.Exact cs) {j : Nat} (hj : h.StructByte cs j) :
    h.mem.byte j = k.mem.byte j := by
  have htag : ∀ i, h.TagWord (cs.map (viewOf h.mem)) i → InWord i j → h.mem.byte j = k.mem.byte j :=
    fun _ hi => Memory.byte_eq_of_word (tagWord_eq hs hs' he he' hi)
  have hlink : ∀ i, h.LinkWord (cs.map (viewOf h.mem)) i → InWord i j →
      h.mem.byte j = k.mem.byte j :=
    fun _ hi => Memory.byte_eq_of_word (linkWord_eq hs hs' he he' hi)
  rcases hj with ⟨b, hb, hj⟩ | hj | ⟨x, hx, (hj | hj) | ⟨hf, hle, hlt⟩⟩
  · exact hlink _ (.inl ⟨b, hb, .inr (.inl rfl)⟩) hj
  · rcases hs.inWord_of_epilog_le (cs.map (viewOf h.mem)) hj with hj | ⟨i, hi, hj⟩ | hend
    · exact htag _ (.inr (.inl rfl)) hj
    · exact hlink i hi hj
    · have hend' : k.size ≤ j := (hs.extent_eq hs').2 ▸ hend
      exact (Memory.byte_of_size_le hend).trans (Memory.byte_of_size_le hend').symm
  · exact htag _ (.inr (.inr ⟨_, List.mem_map_of_mem hx, .inl rfl⟩)) hj
  · exact htag _ (.inr (.inr ⟨_, List.mem_map_of_mem hx, .inr rfl⟩)) hj
  · by_cases hpred : j < x.1 + wordSize
    · exact hlink _ (.inr ⟨_, List.mem_map_of_mem hx, hf, .inl rfl⟩) ⟨hle, hpred⟩
    · refine hlink _ (.inr ⟨_, List.mem_map_of_mem hx, hf, .inr rfl⟩) ⟨Nat.le_of_not_lt hpred, ?_⟩
      simp only [viewOf, nodeSize, wordSize] at *
      omega

end

/-! ## Alike heaps -/

/-- Both heaps have the blocks `cs` and the lists `ls`, as the allocator writes them. -/
structure Shared (cs : List TaggedBlock) (ls : Nat → List Nat) (h k : Heap) : Prop where
  left : h.Sound cs ls
  right : k.Sound cs ls
  leftExact : h.Exact cs
  rightExact : k.Exact cs

/-- Both heaps have the same blocks and lists. -/
def Alike (h k : Heap) : Prop :=
  ∃ cs ls, Shared cs ls h k

/-- A step on both sides that leaves the same blocks and lists. -/
theorem Shared.becomes (hw : Shared cs ls h k) {h' k' : Heap} (hb : h.Becomes cs h' cs' ls')
    (hb' : k.Becomes cs k' cs' ls') : h'.Alike k' :=
  ⟨cs', ls', hb.sound, hb'.sound, hb.exact hw.leftExact, hb'.exact hw.rightExact⟩

theorem Alike.symm (hw : h.Alike k) : k.Alike h := by
  obtain ⟨cs, ls, hw⟩ := hw
  exact ⟨cs, ls, hw.right, hw.left, hw.rightExact, hw.leftExact⟩

/-- Only the lists of buckets matter. -/
theorem Sound.congr_lists (hs : h.Sound cs ls) (hl : ∀ b < Bucket.count, ls' b = ls b) :
    h.Sound cs ls' := by
  have hshape := hs.shape
  refine ⟨⟨hshape.chain, hshape.separated, fun b hb => hl b hb ▸ hshape.linked b hb,
    fun b hb x hx => hshape.listed b hb x (hl b hb ▸ hx), fun x tag hm hf => ?_⟩, hs.span,
    hs.small, hs.guard⟩
  rw [hl _ (Bucket.ofSize_lt _)]
  exact hshape.complete x tag hm hf

theorem Alike.trans {l : Heap} (hw : h.Alike k) (hw' : k.Alike l) : h.Alike l := by
  obtain ⟨cs, ls, hw⟩ := hw
  obtain ⟨cs', ls', hw'⟩ := hw'
  obtain rfl := hw.right.chain.unique hw'.left.chain
  refine ⟨cs, ls, hw.left, hw'.right.congr_lists fun b hb => ?_, hw.leftExact, hw'.rightExact⟩
  have hnodes := hw.right.consistent.nodes hb
  exact Except.ok.inj (hnodes.symm.trans (hw'.left.consistent.nodes hb))

/-- Writing into a payload on one side keeps heaps alike. -/
theorem Shared.write_left (hw : Shared cs ls h k) (hx : x ∈ cs) (ha : x.2.status = .allocated)
    {m : Memory} {S : Nat → Prop} (hm : h.mem.ChangesOnly m S) (hS : ∀ j, S j → Payload x j) :
    Alike ⟨m, h.epilog⟩ k := by
  obtain ⟨hs, he⟩ := hw.left.write_payload hx ha hm hS
  exact ⟨cs, ls, hs, hw.right, he hw.leftExact, hw.rightExact⟩

/-! ## Operations on alike heaps -/

variable {size : Nat}

/-- Taking a block. -/
theorem Alike.acquire (hw : h.Alike k) (hsz : BlockSize size) (limit : Nat) :
    Agree Alike (h.acquire limit size) (k.acquire limit size) := by
  obtain ⟨cs, ls, hw⟩ := hw
  have hs := hw.left
  have hs' := hw.right
  cases hx : fit cs ls size with
  | some y =>
    obtain ⟨tag, hm, hf, -⟩ := hs.consistent.listed.fit hs.chain.tiles hx
    obtain ⟨found, status⟩ := tag
    obtain rfl : status = .free := Tag.isFree_iff.mp hf
    obtain ⟨pre, post, hcs⟩ := List.append_of_mem hm
    obtain ⟨h', hrun, hb, -⟩ := hs.acquire_reused limit hsz hx hcs
    obtain ⟨k', hrun', hb', -⟩ := hs'.acquire_reused limit hsz hx hcs
    exact ⟨_, h', k', hrun, hrun', hw.becomes hb hb'⟩
  | none =>
    obtain ⟨pre, last, he⟩ := exists_endsIn hs.shape.separated
    obtain ⟨hepilog, hsize⟩ := hs.extent_eq hs'
    have hblock : k.growthBlock last = h.growthBlock last := by
      rw [growthBlock, growthBlock, hepilog]
    have hgrowth : k.growthFor last size = h.growthFor last size := by
      rw [growthFor, growthFor, hblock, hepilog]
    have hrefusal : k.growthRefusal limit (k.growthFor last size) =
        h.growthRefusal limit (h.growthFor last size) := by
      rw [hgrowth, Heap.growthRefusal, Heap.growthRefusal, hsize]
    cases hg : h.growthRefusal limit (h.growthFor last size) with
    | some cause =>
      exact ⟨_, h, k, hs.acquire_refused hsz hx he hg,
        hs'.acquire_refused hsz hx he (hrefusal.trans hg), cs, ls, hw⟩
    | none =>
      obtain ⟨h', hrun, hb, -⟩ := hs.acquire_grown hsz hx he hg
      obtain ⟨k', hrun', hb', -⟩ := hs'.acquire_grown hsz hx he (hrefusal.trans hg)
      rw [hblock] at hrun' hb'
      rw [hgrowth] at hrun'
      exact ⟨_, h', k', hrun, hrun', hw.becomes hb hb'⟩

section

variable (hw : Shared cs ls h k) (hx : x ∈ cs) (ha : x.2.status = .allocated)
include hw hx ha

/-- Giving one back. -/
theorem Shared.release : Agree Alike (h.release x.1) (k.release x.1) := by
  obtain ⟨pre, prev, next, post, hr⟩ := exists_around hw.left.shape.separated hx
  obtain ⟨h', hrun, hb, -⟩ := hw.left.release hr ha
  obtain ⟨k', hrun', hb', -⟩ := hw.right.release hr ha
  exact ⟨_, h', k', hrun, hrun', hw.becomes hb hb'⟩

/-- Changing its size. -/
theorem Shared.resize (hsz : BlockSize size) (limit : Nat) :
    Agree Alike (h.resize limit x.1 size) (k.resize limit x.1 size) := by
  have hs := hw.left
  have hs' := hw.right
  obtain ⟨pre, prev, next, post, hr⟩ := exists_around hs.shape.separated hx
  have hn := hr.before_next
  by_cases hle : size ≤ roomSize x next
  · obtain ⟨h', hrun, hb, -⟩ := hs.resize_inPlace hn ha limit hsz hle
    obtain ⟨k', hrun', hb', -⟩ := hs'.resize_inPlace hn ha limit hsz hle
    exact ⟨_, h', k', hrun, hrun', hw.becomes hb hb'⟩
  · have hlt := Nat.lt_of_not_le hle
    by_cases hlast : post = []
    · have hrefusal : k.growthRefusal limit (size - roomSize x next) =
          h.growthRefusal limit (size - roomSize x next) := by
        rw [Heap.growthRefusal, Heap.growthRefusal, (hs.extent_eq hs').2]
      cases hg : h.growthRefusal limit (size - roomSize x next) with
      | some cause =>
        exact ⟨_, h, k, hs.resize_refused hn ha hlt hlast hg,
          hs'.resize_refused hn ha hlt hlast (hrefusal.trans hg), cs, ls, hw⟩
      | none =>
        obtain ⟨h', hrun, hb, -⟩ := hs.resize_grown hn ha hsz hlt hlast hg
        obtain ⟨k', hrun', hb', -⟩ := hs'.resize_grown hn ha hsz hlt hlast (hrefusal.trans hg)
        exact ⟨_, h', k', hrun, hrun', hw.becomes hb hb'⟩
    · exact ⟨_, h, k, hs.resize_mustMove hn hlt hlast, hs'.resize_mustMove hn hlt hlast,
        cs, ls, hw⟩

end

/-- Blocks of one heap are blocks of both. -/
theorem Alike.shared (hw : h.Alike k) (hs : h.Sound cs ls) : ∃ ls', Shared cs ls' h k := by
  obtain ⟨cs', ls', hw⟩ := hw
  obtain rfl := hw.left.chain.unique hs.chain
  exact ⟨ls', hw⟩

/-- Alike heaps do the same and stay alike. -/
theorem lockstep_alike : Lockstep Alike where
  sound hw := by
    obtain ⟨cs, ls, hw⟩ := hw
    exact ⟨cs, ls, hw.left, hw.right⟩
  acquire hw hsz limit := hw.acquire hsz limit
  release hw hs hx ha := by
    obtain ⟨_, hw⟩ := hw.shared hs
    exact hw.release hx ha
  resize hw hs hx ha hsz limit := by
    obtain ⟨_, hw⟩ := hw.shared hs
    exact hw.resize hx ha hsz limit
  copy hw hs hx hy ha hnx hny := by
    obtain ⟨ls, hw⟩ := hw.shared hs
    obtain ⟨m, hm, hs, he⟩ := hw.left.copy_payload hx hy ha hnx hny
    obtain ⟨m', hm', hs', he'⟩ := hw.right.copy_payload hx hy ha hnx hny
    exact ⟨m, m', hm, hm', _, ls, hs, hs', he hw.leftExact, he' hw.rightExact⟩
  fill f hw hs hx ha := by
    obtain ⟨ls, hw⟩ := hw.shared hs
    obtain ⟨m, hm, hs, he⟩ := hw.left.fill_payload hx ha f
    obtain ⟨m', hm', hs', he'⟩ := hw.right.fill_payload hx ha f
    exact ⟨m, m', hm, hm', _, ls, hs, hs', he hw.leftExact, he' hw.rightExact⟩

end Heap

end SegFit
