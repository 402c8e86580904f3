/-
  Odd words.  Headers, and the forward links of nodes, are the words at four modulo eight.  The
  word there is odd if it is the header of an allocated block and even if it is that of a free
  one or a link, since links lead to aligned offsets.  So no list operation makes such a word
  odd (`Consistent.odd_of_relink`), and marking a block as free makes its header even
  (`Memory.Marked.of_odd`).
-/
import SegFit.Proofs.Consistency

namespace SegFit

theorem Tag.allocated_iff_odd {w : UInt32} {t : Tag} (h : decode w = some t) :
    t.status = .allocated ↔ w.toNat % 2 = 1 := by
  unfold decode at h
  split at h
  · cases h
  · cases h
    by_cases hw : w.toNat % 2 = 1 <;> simp [hw]

namespace Memory

variable {m n : Memory} {i j : Nat}

/-- The low byte of a word at four modulo eight is odd. -/
def OddAt (m : Memory) (j : Nat) : Prop :=
  j % alignment = wordSize ∧ (m.byte j).toNat % 2 = 1

theorem OddAt.congr (h : m.OddAt j) (he : n.byte j = m.byte j) : n.OddAt j :=
  ⟨h.1, he ▸ h.2⟩

/-- Of a word, only the low byte is at four modulo eight. -/
theorem OddAt.eq_of_inWord (h : m.OddAt j) (hi : i % wordSize = 0) (hj : InWord i j) : j = i := by
  have h1 := h.1
  simp only [InWord, alignment, wordSize] at *
  omega

theorem toNat_word_mod_two (m : Memory) (i : Nat) :
    (m.word i).toNat % 2 = (m.byte i).toNat % 2 := by
  rw [word, UInt32.toNat_ofNat']
  omega

/-- The tags of a block hold at most one odd word, the header of an allocated block. -/
theorem Marked.of_odd {b : TaggedBlock} (hm : m.Marked b) (hb : b.1 % alignment = 0)
    (hw : wordSize ≤ b.1) (hj : TagByte b j) (ho : m.OddAt j) :
    b.2.status = .allocated ∧ b.1 = j + wordSize := by
  have hsize : b.2.size % alignment = 0 := hm.encodable.1
  rcases hj with hj | hj
  · obtain rfl := ho.eq_of_inWord (by simp only [alignment, wordSize] at *; omega) hj
    have hword := (toNat_word_mod_two m _).trans ho.2
    exact ⟨(Tag.allocated_iff_odd hm.header).mpr hword, by omega⟩
  · have h1 := ho.1
    have h2 := ho.eq_of_inWord (by simp only [alignment, overhead, wordSize] at *; omega) hj
    simp only [alignment, overhead, wordSize] at *
    omega

/-- Following a link leads to another node. -/
theorem Linked.succLink_mem {l : List Nat} {x t : Nat} (hl : m.Linked (l ++ [t])) (hx : x ∈ l) :
    m.succLink x ∈ l ++ [t] := by
  induction l with
  | nil => cases hx
  | cons y l ih =>
    obtain ⟨z, rest, hz⟩ : ∃ z rest, l ++ [t] = z :: rest :=
      List.exists_cons_of_ne_nil (by simp)
    have hl : m.Linked (y :: z :: rest) := hz ▸ hl
    rcases List.mem_cons.mp hx with rfl | hx
    · rw [hl.1, List.cons_append, hz]
      simp
    · exact List.mem_cons_of_mem _ (ih (hz ▸ hl.2.2) hx)

end Memory

namespace Heap

variable {h : Heap} {cs : List TaggedBlock} {ls : Nat → List Nat}

namespace Consistent

variable (hk : h.Consistent cs ls)
include hk

/-- All nodes are aligned. -/
theorem strand_aligned {b x : Nat} (hb : b < Bucket.count) (hx : x ∈ h.strand ls b) :
    x % alignment = 0 := by
  obtain ⟨hblocks, hend⟩ := hk.chain.aligned
  rcases mem_strand.mp hx with rfl | hx | rfl
  · simp only [prologNode, nodeSize, wordSize, alignment]
    omega
  · obtain ⟨tag, hm, -⟩ := hk.listed b hb x hx
    exact hblocks _ hm
  · simp only [epilogNode, nodeSize, wordSize, alignment] at *
    omega

/-- No forward link is odd. -/
theorem not_odd_of_succ {b x : Nat} (hb : b < Bucket.count) (hx : x ∈ prologNode b :: ls b) :
    ¬ h.mem.OddAt (x + wordSize) := by
  intro ho
  have hlink : h.mem.succLink x % alignment = 0 :=
    hk.strand_aligned hb ((hk.linked b hb).succLink_mem hx)
  have hodd := (Memory.toNat_word_mod_two _ _).trans ho.2
  simp only [Memory.succLink, alignment] at hlink
  omega

/-- No link holds an odd word. -/
theorem not_odd_of_linkByte {j : Nat} (hj : h.LinkByte ls j) : ¬ h.mem.OddAt j := by
  intro ho
  obtain ⟨b, hb, hj | ⟨x, hx, hj⟩ | hj⟩ := hj
  · obtain rfl := ho.eq_of_inWord (by simp only [prologNode, nodeSize, wordSize]; omega) hj
    exact hk.not_odd_of_succ hb List.mem_cons_self ho
  · have hal := hk.strand_aligned hb (mem_strand_of_mem hx)
    obtain rfl : j = x + wordSize := by
      have := ho.1
      simp only [InNode, alignment, nodeSize, wordSize] at *
      omega
    exact hk.not_odd_of_succ hb (List.mem_cons_of_mem _ hx) ho
  · have hend : h.epilogNode b ∈ h.strand ls b := epilogNode_mem_strand
    have hal := hk.strand_aligned hb hend
    have := ho.1
    simp only [InWord, alignment, wordSize] at *
    omega

omit hk in
/-- Rewriting links makes no word odd. -/
theorem odd_of_relink {m : Memory} (hk' : Consistent ⟨m, h.epilog⟩ cs ls)
    (hc : h.mem.ChangesOnly m (h.LinkByte ls)) {j : Nat} (ho : m.OddAt j) : h.mem.OddAt j := by
  have hj : ¬ h.LinkByte ls j := fun hj => hk'.not_odd_of_linkByte hj ho
  exact ho.congr (hc.byte j hj).symm

end Consistent

end Heap

end SegFit
