/-
  Payloads.  Bytes of a payload carry no structure, so a write into one leaves the heap sound
  with the blocks and lists that it has (`Sound.write_payload`), and changes no other payload.
  The writers of ranges are given by the bytes that they leave (`fill_spec`, `copy_spec`).
-/
import SegFit.Proofs.Sound

namespace SegFit

namespace Memory

/-! ## Ranges -/

/-- Byte `j` is one of the `n` bytes from `i` on. -/
def InRange (i n j : Nat) : Prop :=
  i ≤ j ∧ j < i + n

theorem fill_spec {m : Memory} {i n : Nat} (f : Nat → UInt8) (h : i + n ≤ m.size) :
    ∃ m', m.fill i n f = .ok m' ∧ m.ChangesOnly m' (InRange i n) ∧
      ∀ k < n, m'.byte (i + k) = f k := by
  refine ⟨m.setRange i f n, if_pos h, ⟨size_setRange .., fun j hj => ?_⟩, fun k hk => ?_⟩
  · exact (byte_setRange m i n j f h).trans (if_neg hj)
  · rw [byte_setRange m i n _ f h, if_pos ⟨by omega, by omega⟩, Nat.add_sub_cancel_left]

theorem write_spec {m : Memory} {i : Nat} (part : ByteArray) (h : i + part.size ≤ m.size) :
    ∃ m', m.write i part = .ok m' ∧ m.ChangesOnly m' (InRange i part.size) ∧
      ∀ k < part.size, m'.byte (i + k) = (part.data[k]?).getD 0 := by
  refine ⟨m.setSlice i part, if_pos h, ⟨size_setSlice m i part h, fun j hj => ?_⟩, fun k hk => ?_⟩
  · exact (byte_setSlice m i j part h).trans (if_neg hj)
  · rw [byte_setSlice m i _ part h, if_pos ⟨by omega, by omega⟩, Nat.add_sub_cancel_left]

theorem size_slice {m : Memory} {i n : Nat} (h : i + n ≤ m.size) : (m.slice i n).size = n := by
  show (m.bytes.extract i (i + n)).size = n
  rw [ByteArray.size_extract]
  have h : i + n ≤ m.bytes.size := h
  omega

/-- The bytes read are those of the store. -/
theorem getElem?_slice {m : Memory} {i n k : Nat} (h : i + n ≤ m.size) (hk : k < n) :
    (m.slice i n).data[k]? = some (m.byte (i + k)) := by
  have hd : (m.slice i n).data = m.bytes.data.extract i (i + n) := ByteArray.data_extract ..
  have h : i + n ≤ m.bytes.data.size := h
  rw [hd, Array.getElem?_extract, if_pos (by omega), byte_eq,
    Array.getElem?_eq_getElem (by omega)]
  rfl

/-- Where two stores agree, the same is read from them. -/
theorem slice_congr {m m' : Memory} {i n : Nat} (h : i + n ≤ m.size) (h' : i + n ≤ m'.size)
    (hb : ∀ k < n, m'.byte (i + k) = m.byte (i + k)) : m'.slice i n = m.slice i n := by
  refine ByteArray.ext (Array.ext_getElem? fun k => ?_)
  by_cases hk : k < n
  · rw [getElem?_slice h' hk, getElem?_slice h hk, hb k hk]
  · have hs : (m.slice i n).data.size = n := size_slice h
    have hs' : (m'.slice i n).data.size = n := size_slice h'
    rw [Array.getElem?_eq_none (by omega), Array.getElem?_eq_none (by omega)]

/-- A copy, also onto itself. -/
theorem copy_spec {m : Memory} (source target : Nat) {n : Nat} (hs : source + n ≤ m.size)
    (ht : target + n ≤ m.size) :
    ∃ m', m.copy source target n = .ok m' ∧ m.ChangesOnly m' (InRange target n) ∧
      ∀ k < n, m'.byte (target + k) = m.byte (source + k) := by
  have hsz := size_slice hs
  obtain ⟨m', hm, hc, hb⟩ := write_spec (m := m) (i := target) (m.slice source n) (by omega)
  refine ⟨m', ?_, hsz ▸ hc, fun k hk => ?_⟩
  · unfold copy
    rw [read, if_pos hs, ok_bind, hm]
  · rw [hb k (by omega), getElem?_slice hs hk]
    rfl

end Memory

namespace Heap

variable {h : Heap} {cs : List TaggedBlock} {ls : Nat → List Nat} {b : TaggedBlock}

/-- A payload meets no payload of another block. -/
theorem Chain.payload_disjoint (hc : h.Chain firstBlock cs) {c : TaggedBlock} (hb : b ∈ cs)
    (hcm : c ∈ cs) (hne : b ≠ c) {j : Nat} (hj : Payload b j) : ¬ Payload c j := by
  have := (hc.tiles.eq_or_apart hb hcm).resolve_left hne
  simp only [Payload, overhead] at *
  omega

/-- The size of a payload, as it is computed. -/
theorem Chain.difference_overhead (hc : h.Chain firstBlock cs) (hb : b ∈ cs) :
    difference b.2.size overhead = .ok (b.2.size - overhead) := by
  have hlarge := (hc.bounds hb).2.2
  refine difference_of_le ?_
  simp only [minBlock, overhead] at *
  omega

/-- A payload lies among the bytes of the store. -/
theorem Consistent.payload_le (hk : h.Consistent cs ls) (hb : b ∈ cs) :
    b.1 + (b.2.size - overhead) ≤ h.mem.size := by
  have hbb := hk.chain.bounds hb
  have hroom := hk.room
  simp only [Heap.size, epilogBytes, minBlock, overhead, wordSize] at *
  omega

/-- Writing into the payload of an allocated block keeps the heap sound as it is. -/
theorem Sound.write_payload (hs : h.Sound cs ls) (hb : b ∈ cs) (ha : b.2.status = .allocated)
    {m : Memory} {S : Nat → Prop} (hm : h.mem.ChangesOnly m S) (hS : ∀ j, S j → Payload b j) :
    Sound ⟨m, h.epilog⟩ cs ls ∧ (h.Exact cs → Exact ⟨m, h.epilog⟩ cs) := by
  have hbb := hs.chain.bounds hb
  have hfree : ∀ j, h.StructByte cs j → ¬ S j :=
    fun j hj hs' => hs.chain.not_structByte_of_payload hb ha (hS j hs') hj
  have htag : ∀ c ∈ cs, ∀ j, Memory.TagByte c j → ¬ S j :=
    fun c hc j hj => hfree j (.inr (.inr ⟨c, hc, .inl hj⟩))
  have hzero : ∀ j, InWord h.epilog j → ¬ S j := fun j hj => hfree j (.inr (.inl hj.1))
  have hchain := hs.chain.of_changesOnly hm htag hzero
  have hsz : (⟨m, h.epilog⟩ : Heap).size = h.size := hm.size
  have hlow : ∀ j, S j → firstBlock ≤ j ∧ j < h.epilog := by
    intro j hj
    have := hS j hj
    simp only [Payload, overhead, wordSize] at *
    omega
  refine ⟨⟨⟨hchain, hs.shape.separated, fun c hc => ?_, hs.shape.listed, hs.shape.complete⟩,
    hs.span.trans hsz.symm, hsz ▸ hs.small, ?_⟩, fun he => ?_⟩
  · refine (hs.shape.linked c hc).of_changesOnly hm fun x hx j hj hs' => ?_
    have hjl := hlow j hs'
    rcases mem_strand.mp hx with rfl | hx | rfl
    · simp only [InNode, prologNode, firstBlock, prologEnd, overhead, nodeSize, wordSize,
        Bucket.count] at *
      omega
    · obtain ⟨tag, hmem, hf, -⟩ := hs.shape.listed c hc x hx
      exact hfree j (.inr (.inr ⟨_, hmem, .inr ⟨hf, hj⟩⟩)) hs'
    · simp only [InNode, epilogNode, wordSize] at *
      omega
  · have hw : m.word prologEnd = h.mem.word prologEnd := hm.word fun j hj hs' => by
      have := hlow j hs'
      simp only [InWord, firstBlock, prologEnd, overhead, nodeSize, wordSize, Bucket.count] at *
      omega
    exact (congrArg (fun w => Memory.freeTag (Tag.decode w)) hw).trans hs.guard
  · refine he.of_changesOnly hm (fun j hj hs' => ?_) fun c hc => .inr ⟨hc, htag c hc⟩
    have hjl := hlow j hs'
    rcases hj with hj | ⟨c, hc, hj | hj⟩ <;>
    · simp only [InWord, prologNode, epilogNode, firstBlock, prologEnd, overhead, nodeSize,
        wordSize, Bucket.count] at *
      omega

/-- So does a copy into one. -/
theorem Sound.copy_payload {c : TaggedBlock} {n : Nat} (hs : h.Sound cs ls) (hb : b ∈ cs)
    (hc : c ∈ cs) (ha : c.2.status = .allocated) (hnb : n + overhead ≤ b.2.size)
    (hnc : n + overhead ≤ c.2.size) :
    ∃ m, h.mem.copy b.1 c.1 n = .ok m ∧ Sound ⟨m, h.epilog⟩ cs ls ∧
      (h.Exact cs → Exact ⟨m, h.epilog⟩ cs) := by
  have hbin := hs.consistent.payload_le hb
  have hcin := hs.consistent.payload_le hc
  obtain ⟨m, hm, hmc, -⟩ := Memory.copy_spec (m := h.mem) b.1 c.1 (n := n)
    (by simp only [overhead] at *; omega) (by simp only [overhead] at *; omega)
  refine ⟨m, hm, hs.write_payload hc ha hmc fun j hj => ?_⟩
  simp only [Payload, Memory.InRange, overhead] at *
  omega

/-- And filling one. -/
theorem Sound.fill_payload (hs : h.Sound cs ls) (hb : b ∈ cs) (ha : b.2.status = .allocated)
    (f : Nat → UInt8) :
    ∃ m, h.mem.fill b.1 (b.2.size - overhead) f = .ok m ∧ Sound ⟨m, h.epilog⟩ cs ls ∧
      (h.Exact cs → Exact ⟨m, h.epilog⟩ cs) := by
  obtain ⟨m, hm, hmc, -⟩ := Memory.fill_spec (m := h.mem) f (hs.consistent.payload_le hb)
  refine ⟨m, hm, hs.write_payload hb ha hmc fun j hj => ?_⟩
  simp only [Payload, Memory.InRange, overhead] at *
  omega

end Heap

end SegFit
