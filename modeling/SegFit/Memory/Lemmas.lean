/-
  The store seen byte by byte and word by word.  What each writer does is stated on the
  readers `byte`, `word` and `size`; two stores are equal when these agree.  A word write
  changes its own four bytes and reads back as what was written.
-/
import SegFit.Memory.Basic

namespace SegFit.Memory

/-! ## Bytes -/

theorem byte_eq (m : Memory) (i : Nat) : m.byte i = (m.bytes.data[i]?).getD 0 := by
  unfold byte
  split
  · rename_i h
    rw [Array.getElem?_eq_getElem h]
    rfl
  · rename_i h
    rw [Array.getElem?_eq_none (Nat.not_lt.mp h)]
    rfl

theorem byte_of_size_le {m : Memory} {i : Nat} (h : m.size ≤ i) : m.byte i = 0 :=
  dif_neg (Nat.not_lt.mpr h)

@[simp] theorem size_setByte (m : Memory) (i : Nat) (b : UInt8) :
    (m.setByte i b).size = m.size := by
  unfold setByte
  split
  · exact Array.size_set ..
  · rfl

theorem byte_setByte (m : Memory) (i j : Nat) (b : UInt8) :
    (m.setByte i b).byte j = if i = j ∧ i < m.size then b else m.byte j := by
  unfold setByte
  split
  · rename_i h
    have hset : (m.bytes.data.set i b h)[j]? = _ := Array.getElem?_set h
    rw [byte_eq, show ((⟨m.bytes.set i b h⟩ : Memory).bytes.data[j]?) = _ from hset, byte_eq]
    by_cases hij : i = j
    · rw [if_pos hij, if_pos ⟨hij, h⟩]
      rfl
    · rw [if_neg hij, if_neg fun hc => hij hc.1]
  · rename_i h
    rw [if_neg fun hc => h hc.2]

/-! ## Words -/

@[simp] theorem size_setWord (m : Memory) (i : Nat) (w : UInt32) :
    (m.setWord i w).size = m.size := by
  simp [setWord]

theorem byte_setWord_of_disjoint (m : Memory) {i j : Nat} (w : UInt32)
    (h : j < i ∨ i + wordSize ≤ j) : (m.setWord i w).byte j = m.byte j := by
  simp only [wordSize] at h
  simp only [setWord, byte_setByte, size_setByte]
  repeat rw [if_neg (by omega)]

/-- A word reads back as it was written. -/
theorem word_setWord_self (m : Memory) {i : Nat} (w : UInt32) (h : i + wordSize ≤ m.size) :
    (m.setWord i w).word i = w := by
  have hw : w.toNat < 2 ^ 32 := w.toNat_lt
  simp only [wordSize] at h
  apply UInt32.toNat.inj
  simp only [word, setWord, byte_setByte, size_setByte]
  simp (disch := omega) [show i < m.size by omega, show i + 1 < m.size by omega,
    show i + 2 < m.size by omega, show i + 3 < m.size by omega]
  omega

/-- A word keeps its value when another, disjoint from it, is written. -/
theorem word_setWord_of_disjoint (m : Memory) {i j : Nat} (w : UInt32)
    (h : j + wordSize ≤ i ∨ i + wordSize ≤ j) : (m.setWord i w).word j = m.word j := by
  simp only [wordSize] at h
  unfold word
  repeat rw [byte_setWord_of_disjoint _ _ (by simp only [wordSize]; omega)]

/-! ## Growth -/

@[simp] theorem size_extend (m : Memory) (n : Nat) : (m.extend n).size = m.size + n := by
  induction n generalizing m with
  | zero => rfl
  | succ n ih =>
    have hs : (⟨m.bytes.push 0⟩ : Memory).size = m.size + 1 := Array.size_push ..
    rw [extend, ih, hs]
    omega

/-- Growth keeps every byte, and what is new is zero. -/
@[simp] theorem byte_extend (m : Memory) (n i : Nat) : (m.extend n).byte i = m.byte i := by
  induction n generalizing m with
  | zero => rfl
  | succ n ih =>
    have hp : (m.bytes.data.push 0)[i]? = _ := Array.getElem?_push
    rw [extend, ih, byte_eq, show ((⟨m.bytes.push 0⟩ : Memory).bytes.data[i]?) = _ from hp,
      byte_eq]
    split
    · rename_i h
      rw [Array.getElem?_eq_none (Nat.le_of_eq h.symm)]
      rfl
    · rfl

/-! ## Ranges -/

@[simp] theorem size_setRange (m : Memory) (i n : Nat) (f : Nat → UInt8) :
    (m.setRange i f n).size = m.size := by
  induction n generalizing m with
  | zero => rfl
  | succ n ih => rw [setRange, ih, size_setByte]

theorem byte_setRange (m : Memory) (i n j : Nat) (f : Nat → UInt8) (h : i + n ≤ m.size) :
    (m.setRange i f n).byte j = if i ≤ j ∧ j < i + n then f (j - i) else m.byte j := by
  induction n generalizing m with
  | zero => rw [if_neg (by omega)]; rfl
  | succ n ih =>
    rw [setRange, ih _ (by rw [size_setByte]; omega), byte_setByte]
    by_cases hn : i + n = j
    · rw [if_neg (by omega), if_pos ⟨hn, by omega⟩, if_pos (by omega),
        show j - i = n by omega]
    · rw [if_neg (fun hc : i + n = j ∧ _ => hn hc.1)]
      simp only [show (i ≤ j ∧ j < i + (n + 1)) ↔ (i ≤ j ∧ j < i + n) by omega]

theorem size_setSlice (m : Memory) (i : Nat) (part : ByteArray) (h : i + part.size ≤ m.size) :
    (m.setSlice i part).size = m.size := by
  replace h : i + part.data.size ≤ m.bytes.data.size := h
  show (part.copySlice 0 m.bytes i part.data.size).data.size = m.bytes.data.size
  simp only [ByteArray.copySlice, Array.size_append, Array.size_extract]
  omega

theorem byte_setSlice (m : Memory) (i j : Nat) (part : ByteArray) (h : i + part.size ≤ m.size) :
    (m.setSlice i part).byte j =
      if i ≤ j ∧ j < i + part.size then (part.data[j - i]?).getD 0 else m.byte j := by
  replace h : i + part.data.size ≤ m.bytes.data.size := h
  have hd : (m.setSlice i part).bytes.data =
      m.bytes.data.extract 0 i ++ part.data.extract 0 (0 + part.data.size) ++
        m.bytes.data.extract (i + min part.data.size (part.data.size - 0)) := rfl
  have hi : min i m.bytes.data.size = i := by omega
  rw [byte_eq, byte_eq, hd, show part.size = part.data.size from rfl]
  simp only [Array.getElem?_append, Array.size_append, Array.size_extract, Array.getElem?_extract,
    Nat.zero_add, Nat.sub_zero, Nat.min_self, hi]
  by_cases h1 : j < i
  · rw [if_neg (show ¬ (i ≤ j ∧ j < i + part.data.size) by omega), if_pos (by omega),
      if_pos h1, if_pos h1]
  · by_cases h2 : j < i + part.data.size
    · rw [if_pos h2, if_neg h1, if_pos (by omega), if_pos ⟨by omega, h2⟩]
    · rw [if_neg h2, if_neg (show ¬ (i ≤ j ∧ j < i + part.data.size) by omega),
        show i + part.data.size + (j - (i + part.data.size)) = j by omega]
      split
      · rfl
      · rw [Array.getElem?_eq_none (by omega)]

/-! ## Checked accesses -/

theorem readWord_of_le {m : Memory} {i : Nat} (h : i + wordSize ≤ m.size) :
    m.readWord i = .ok (m.word i) :=
  if_pos h

theorem writeWord_of_le {m : Memory} {i : Nat} (w : UInt32) (h : i + wordSize ≤ m.size) :
    m.writeWord i w = .ok (m.setWord i w) :=
  if_pos h

/-- A word access succeeds only inside the store. -/
theorem writeWord_eq_ok_iff {m n : Memory} {i : Nat} {w : UInt32} :
    m.writeWord i w = .ok n ↔ i + wordSize ≤ m.size ∧ m.setWord i w = n := by
  unfold writeWord
  split <;> rename_i h <;> simp [h]

end SegFit.Memory
