/-
  Stale words.  Merges, splits, moves of the epilog and copies leave old headers and links
  behind.  In an unforged heap the only odd words at four modulo eight are the headers of
  allocated blocks, so what lies around elsewhere is never read as one of these: a pointer that
  passes validation is that of an allocated block (`Sound.liveSize_iff`).  Every heap operation
  keeps a heap unforged (`Becomes.unforged`), and so does a copy from one payload to another
  (`Unforged.copy`).
-/
import SegFit.Proofs.LiveBlocks
import SegFit.Proofs.Payloads
import SegFit.Proofs.Views

namespace SegFit

namespace Heap

variable {h h' : Heap} {cs cs' : List TaggedBlock} {ls ls' : Nat → List Nat} {b : TaggedBlock}

/-- An odd word at four modulo eight is the header of an allocated block of `cs`. -/
def Unforged (h : Heap) (cs : List TaggedBlock) : Prop :=
  ∀ j, h.mem.OddAt j → ∃ b ∈ cs, b.2.status = .allocated ∧ b.1 = j + wordSize

/-! ## Bytes of the structure -/

/-- What lies behind the last block holds no odd word. -/
theorem Sound.not_odd_of_epilog (hs : h.Sound cs ls) (he : h.Exact cs) {j : Nat}
    (hj : h.epilog ≤ j) : ¬ h.mem.OddAt j := by
  intro ho
  have hodd := (Memory.toNat_word_mod_two _ _).trans ho.2
  have hspan := hs.span
  have halign := hs.chain.aligned.2
  have hmod := ho.1
  by_cases hep : j = h.epilog
  · rw [hep, hs.chain.zero] at hodd
    cases hodd
  by_cases hin : j < h.mem.size
  · obtain ⟨k, hk, rfl⟩ : ∃ k < Bucket.count, j = h.epilogNode k + wordSize := by
      refine ⟨(j - h.epilog) / alignment - 1, ?_, ?_⟩ <;>
      · simp only [epilogNode, Heap.size, epilogBytes, alignment, nodeSize, wordSize,
          Bucket.count] at *
        omega
    have hzero := he.epilogSucc k hk
    simp only [Memory.succLink] at hzero
    omega
  · have hbyte := ho.2
    rw [Memory.byte_of_size_le (Nat.le_of_not_lt hin)] at hbyte
    cases hbyte

/-- Where there is structure, only headers of allocated blocks are odd words. -/
theorem Sound.header_of_odd (hs : h.Sound cs ls) (he : h.Exact cs) {j : Nat}
    (hj : h.StructByte cs j) (ho : h.mem.OddAt j) :
    ∃ b ∈ cs, b.2.status = .allocated ∧ b.1 = j + wordSize := by
  have hk := hs.consistent
  obtain ⟨b, hb, hj⟩ | hj | ⟨b, hb, hj | ⟨hf, hj⟩⟩ := hj
  · exact absurd ho (hk.not_odd_of_linkByte ⟨b, hb, .inl hj⟩)
  · exact absurd ho (hs.not_odd_of_epilog he hj)
  · have hbb := hs.chain.bounds hb
    have hw : wordSize ≤ b.1 := by
      simp only [firstBlock, overhead, wordSize] at *
      omega
    exact ⟨b, hb, (hs.chain.marked hb).of_odd (hs.chain.aligned.1 b hb) hw hj ho⟩
  · have hlisted := hs.complete b hb hf
    exact absurd ho (hk.not_odd_of_linkByte ⟨_, Bucket.ofSize_lt _, .inr (.inl ⟨_, hlisted, hj⟩)⟩)

/-- The low byte of a header is part of the structure. -/
theorem structByte_header (hb : b ∈ cs) {j : Nat} (hj : b.1 = j + wordSize) :
    h.StructByte cs j := by
  refine .inr (.inr ⟨b, hb, .inl (.inl ?_)⟩)
  simp only [InWord, wordSize] at *
  omega

/-! ## Operations -/

/-- An operation keeps the heap unforged; the block that it gives up has to begin where another
one does, or to leave no odd header behind. -/
theorem Becomes.unforged (hbec : h.Becomes cs h' cs' ls') (he : h.Exact cs) (hu : h.Unforged cs)
    {gone : Option Nat} {new : Option TaggedBlock} (hsw : Swaps cs cs' gone new)
    (hgone : ∀ x ∈ gone, (∃ c ∈ new, c.1 = x) ∨
      ∀ j, ¬ h'.StructByte cs' j → h'.mem.OddAt j → x ≠ j + wordSize) : h'.Unforged cs' := by
  intro j ho
  by_cases hj : h'.StructByte cs' j
  · exact hbec.sound.header_of_odd (hbec.exact he) hj ho
  · obtain ⟨b, hb, ha, hbj⟩ := hu j (hbec.odd j hj ho)
    refine absurd ?_ hj
    by_cases hg : gone = some b.1
    · rcases hgone b.1 hg with ⟨c, rfl, hc⟩ | hclean
      · exact structByte_header hsw.mem_of_new (hc.trans hbj)
      · exact absurd hbj (hclean j hj ho)
    · exact structByte_header (hsw.mem_of_mem hb ha hg) hbj

/-- Writing even words at four modulo eight keeps the heap unforged. -/
theorem Unforged.of_changesOnly (hu : h.Unforged cs) {m : Memory} {S : Nat → Prop}
    (hm : h.mem.ChangesOnly m S) (hS : ∀ j, S j → ¬ m.OddAt j) : Unforged ⟨m, h.epilog⟩ cs := by
  intro j ho
  have hj : ¬ S j := fun hj => hS j hj ho
  exact hu j (ho.congr (hm.byte j hj).symm)

/-- No odd word lies in a payload. -/
theorem Unforged.not_odd_of_payload (hu : h.Unforged cs) (hc : h.Chain firstBlock cs) (hb : b ∈ cs)
    {j : Nat} (hj : Payload b j) : ¬ h.mem.OddAt j := by
  intro ho
  obtain ⟨c, hcc, -, hcj⟩ := hu j ho
  have h1 := hc.bounds hb
  have h2 := hc.bounds hcc
  rcases hc.tiles.eq_or_apart hb hcc with rfl | hap
  · simp only [Payload, wordSize] at *
    omega
  · simp only [Payload, minBlock, overhead, wordSize] at *
    omega

/-- Copying a part of a payload to another place that is aligned keeps the heap unforged. -/
theorem Unforged.copy (hu : h.Unforged cs) (hc : h.Chain firstBlock cs) (hb : b ∈ cs)
    {target n : Nat} (ht : target % alignment = 0) (hn : n + overhead ≤ b.2.size) {m : Memory}
    (hm : h.mem.ChangesOnly m (Memory.InRange target n))
    (hbytes : ∀ k < n, m.byte (target + k) = h.mem.byte (b.1 + k)) :
    Unforged ⟨m, h.epilog⟩ cs := by
  refine hu.of_changesOnly hm fun j hj ho => ?_
  obtain ⟨k, rfl⟩ : ∃ k, j = target + k := ⟨j - target, by
    simp only [Memory.InRange] at hj
    omega⟩
  have hk : k < n := by
    simp only [Memory.InRange] at hj
    omega
  have hal := hc.aligned.1 b hb
  have hmod := ho.1
  refine hu.not_odd_of_payload hc hb (j := b.1 + k) ?_ ⟨?_, ?_⟩
  · simp only [Payload, overhead] at *
    omega
  · simp only [alignment, wordSize] at *
    omega
  · exact hbytes k hk ▸ ho.2

/-! ## Validation -/

/-- A pointer that passes validation is aligned, and the word before it is odd. -/
theorem odd_of_liveSize {ptr size : Nat} (hl : h.liveSize ptr = .ok (.ok size)) :
    wordSize ≤ ptr ∧ h.mem.OddAt (ptr - wordSize) := by
  unfold liveSize at hl
  split at hl
  · cases hl
  rename_i hp
  obtain ⟨tag, ht, hl⟩ := bind_eq_ok.mp hl
  obtain ⟨hw, -, hd⟩ := Memory.tagOf_eq_ok ht
  cases tag with
  | none => cases hl
  | some tag =>
    dsimp only at hl
    split at hl
    · cases hl
    obtain ⟨i, -, hl⟩ := bind_eq_ok.mp hl
    obtain ⟨w, -, hl⟩ := bind_eq_ok.mp hl
    split at hl
    · cases hl
    have ha : tag.status = .allocated := by
      cases hst : tag.status with
      | free =>
        rw [hst] at hl
        cases hl
      | allocated => rfl
    refine ⟨hw, ?_, (Memory.toNat_word_mod_two _ _).symm.trans ((Tag.allocated_iff_odd hd).mp ha)⟩
    simp only [alignment, wordSize] at *
    omega

/-- A pointer that fails validation is refused as such. -/
theorem refusal_of_liveSize {ptr : Nat} {e : Refusal} (hl : h.liveSize ptr = .ok (.error e)) :
    e = .invalidPointer ptr ∨ e = .doubleFree ptr := by
  unfold liveSize at hl
  split at hl
  · cases hl
    exact .inl rfl
  obtain ⟨tag, -, hl⟩ := bind_eq_ok.mp hl
  cases tag with
  | none =>
    cases hl
    exact .inl rfl
  | some tag =>
    dsimp only at hl
    split at hl
    · cases hl
      exact .inl rfl
    obtain ⟨i, -, hl⟩ := bind_eq_ok.mp hl
    obtain ⟨w, -, hl⟩ := bind_eq_ok.mp hl
    split at hl
    · cases hl
      exact .inl rfl
    cases hst : tag.status with
    | free =>
      rw [hst] at hl
      cases hl
      exact .inr rfl
    | allocated =>
      rw [hst] at hl
      cases hl

/-- In an unforged heap exactly the pointers of allocated blocks pass validation. -/
theorem Sound.liveSize_iff (hs : h.Sound cs ls) (hu : h.Unforged cs) {ptr : Nat} :
    (∃ size, h.liveSize ptr = .ok (.ok size)) ↔ ∃ b ∈ cs, b.2.status = .allocated ∧ b.1 = ptr := by
  constructor
  · rintro ⟨size, hl⟩
    obtain ⟨hw, ho⟩ := odd_of_liveSize hl
    obtain ⟨b, hb, ha, hbj⟩ := hu _ ho
    exact ⟨b, hb, ha, by omega⟩
  · rintro ⟨b, hb, ha, rfl⟩
    exact ⟨_, hs.consistent.liveSize hb ha⟩

/-- All others are refused. -/
theorem Sound.liveSize_refused (hs : h.Sound cs ls) (hu : h.Unforged cs) {ptr : Nat}
    (hptr : ¬ ∃ b ∈ cs, b.2.status = .allocated ∧ b.1 = ptr) :
    ∃ e, h.liveSize ptr = .ok (.error e) ∧ (e = .invalidPointer ptr ∨ e = .doubleFree ptr) := by
  obtain ⟨answer, hl⟩ := hs.consistent.exists_liveSize ptr
  cases answer with
  | error e => exact ⟨e, hl, refusal_of_liveSize hl⟩
  | ok size => exact absurd ((hs.liveSize_iff hu).mp ⟨size, hl⟩) hptr

end Heap

end SegFit
