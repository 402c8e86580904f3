/-
  What a write leaves alone.  `m.ChangesOnly n S` says that the store `n` has the size of `m`
  and differs from it at most in the bytes of `S`; a word that meets no byte of `S` keeps its
  value (`ChangesOnly.word`).  Tags and links are written as words, so each writer below is
  given as a total function of the store, with the bytes that it changes.
-/
import SegFit.Heap.Linked
import SegFit.Heap.Chain

namespace SegFit

theorem ok_bind {ε α β : Type} (a : α) (f : α → Except ε β) : (Except.ok a >>= f) = f a :=
  rfl

/-- A sequence of computations succeeds if each of them does. -/
theorem bind_eq_ok {ε α β : Type} {x : Except ε α} {f : α → Except ε β} {b : β} :
    (x >>= f) = .ok b ↔ ∃ a, x = .ok a ∧ f a = .ok b := by
  constructor
  · intro h
    cases x with
    | error e => cases h
    | ok a => exact ⟨a, rfl, h⟩
  · rintro ⟨a, rfl, h⟩
    exact h

theorem eq_ok_of_toOption {ε α : Type} {x : Except ε α} {r : α} (h : x.toOption = some r) :
    x = .ok r := by
  cases x with
  | error e => cases h
  | ok => exact congrArg _ (Option.some.inj h)

theorem offset_eq_ok {n k : Nat} : offset n = .ok k ↔ n < offsetBound ∧ n = k := by
  unfold offset
  split <;> rename_i h <;> simp [h]

theorem difference_eq_ok {m n k : Nat} : difference m n = .ok k ↔ n ≤ m ∧ m - n = k := by
  unfold difference
  split <;> rename_i h <;> simp [h]

theorem footer_of_le {block size : Nat} (hs : overhead ≤ size) (hlt : block + size < offsetBound) :
    footer block size = .ok (block + size - overhead) := by
  rw [footer, offset_of_lt hlt, ok_bind, difference_of_le (Nat.le_add_left_of_le hs)]

/-- Byte `j` belongs to the word at `i`. -/
def InWord (i j : Nat) : Prop :=
  i ≤ j ∧ j < i + wordSize

namespace Memory

/-! ## Frames -/

/-- The store `n` differs from `m` at most in the bytes of `S`. -/
structure ChangesOnly (m n : Memory) (S : Nat → Prop) : Prop where
  size : n.size = m.size
  byte : ∀ j, ¬ S j → n.byte j = m.byte j

theorem word_congr {m n : Memory} {i : Nat} (h : ∀ j, InWord i j → n.byte j = m.byte j) :
    n.word i = m.word i := by
  have hk : ∀ k < 4, n.byte (i + k) = m.byte (i + k) :=
    fun k hk => h _ ⟨by omega, by simp only [wordSize]; omega⟩
  unfold word
  rw [show n.byte i = m.byte i from hk 0 (by omega), hk 1 (by omega), hk 2 (by omega),
    hk 3 (by omega)]

/-- A word determines its bytes. -/
theorem byte_eq_of_word {m n : Memory} {i j : Nat} (hw : m.word i = n.word i) (hj : InWord i j) :
    m.byte j = n.byte j := by
  have hlt : ∀ (m : Memory) (k : Nat), (m.byte (i + k)).toNat < 256 :=
    fun m k => (m.byte (i + k)).toNat_lt
  have hw := congrArg UInt32.toNat hw
  simp only [word, UInt32.toNat_ofNat'] at hw
  -- The four digits of either side.
  have h0 := hlt m 0
  have h1 := hlt m 1
  have h2 := hlt m 2
  have h3 := hlt m 3
  have h0' := hlt n 0
  have h1' := hlt n 1
  have h2' := hlt n 2
  have h3' := hlt n 3
  simp only [InWord, wordSize, Nat.add_zero] at *
  refine UInt8.toNat_inj.mp ?_
  obtain rfl | rfl | rfl | rfl : j = i ∨ j = i + 1 ∨ j = i + 2 ∨ j = i + 3 := by omega
  all_goals omega

namespace ChangesOnly

variable {m n k : Memory} {S T : Nat → Prop}

theorem refl (m : Memory) (S : Nat → Prop) : m.ChangesOnly m S :=
  ⟨rfl, fun _ _ => rfl⟩

theorem trans (h : m.ChangesOnly n S) (h' : n.ChangesOnly k S) : m.ChangesOnly k S :=
  ⟨h'.size.trans h.size, fun j hj => (h'.byte j hj).trans (h.byte j hj)⟩

theorem mono (h : m.ChangesOnly n S) (hst : ∀ j, S j → T j) : m.ChangesOnly n T :=
  ⟨h.size, fun j hj => h.byte j fun hs => hj (hst j hs)⟩

/-- A word outside the changed bytes keeps its value. -/
theorem word (h : m.ChangesOnly n S) {i : Nat} (hi : ∀ j, InWord i j → ¬ S j) :
    n.word i = m.word i :=
  word_congr fun j hj => h.byte j (hi j hj)

end ChangesOnly

theorem changesOnly_setWord (m : Memory) (i : Nat) (w : UInt32) :
    m.ChangesOnly (m.setWord i w) (InWord i) :=
  ⟨size_setWord m i w, fun j hj => byte_setWord_of_disjoint m w (by
    unfold InWord at hj
    omega)⟩

theorem word_extend (m : Memory) (n i : Nat) : (m.extend n).word i = m.word i :=
  word_congr fun j _ => byte_extend m n j

end Memory

/-! ## Tags -/

namespace Tag

theorem bit_le (s : Status) : s.bit ≤ 1 := by
  cases s <;> decide

theorem toNat_word {t : Tag} (h : t.Encodable) : t.word.toNat = t.size + t.status.bit := by
  have hb := bit_le t.status
  have hs : t.size ≤ 0xFFFFFFF8 := h.2
  rw [word, UInt32.toNat_ofNat']
  exact Nat.mod_eq_of_lt (by omega)

theorem encode_of_encodable {t : Tag} (h : t.Encodable) : t.encode = .ok t.word :=
  if_pos h

/-- A tag reads back from its word. -/
theorem decode_word {t : Tag} (h : t.Encodable) (hpos : 0 < t.size) :
    decode t.word = some t := by
  have hw := toNat_word h
  have hb := bit_le t.status
  have hm : t.size % 8 = 0 := h.1
  have hne : t.word ≠ 0 := by
    intro h0
    rw [h0] at hw
    have : (0 : UInt32).toNat = 0 := rfl
    omega
  obtain ⟨size, status⟩ := t
  simp only at hw hb hm
  rw [decode, if_neg hne, hw]
  congr 2
  · simp only [alignment]
    omega
  · cases status
    · rw [if_neg (by simp only [Status.bit]; omega)]
    · rw [if_pos (by simp only [Status.bit]; omega)]

/-- What a word says of a size is a size that tags can describe. -/
theorem encodable_of_decode {w : UInt32} {t : Tag} (h : decode w = some t) : t.Encodable := by
  have hw : w.toNat < 2 ^ 32 := w.toNat_lt
  unfold decode at h
  split at h
  · cases h
  · cases h
    constructor
    · simp only [alignment]
      omega
    · simp only [alignment, maxBlock]
      omega

theorem isFree_iff {t : Tag} : t.isFree = true ↔ t.status = .free := by
  simp [isFree]

end Tag

namespace Memory

/-- Header and footer of the block hold its tag. -/
structure Marked (m : Memory) (b : TaggedBlock) : Prop where
  header : Tag.decode (m.word (b.1 - wordSize)) = some b.2
  footer : m.word (b.1 + b.2.size - overhead) = b.2.word

theorem Marked.encodable {m : Memory} {b : TaggedBlock} (h : m.Marked b) : b.2.Encodable :=
  Tag.encodable_of_decode h.header

/-- The bytes of the header and the footer of a block. -/
def TagByte (b : TaggedBlock) (j : Nat) : Prop :=
  InWord (b.1 - wordSize) j ∨ InWord (b.1 + b.2.size - overhead) j

/-- Tags outside the changed bytes stay. -/
theorem Marked.of_changesOnly {m n : Memory} {S : Nat → Prop} {b : TaggedBlock}
    (h : m.Marked b) (hc : m.ChangesOnly n S) (hd : ∀ j, TagByte b j → ¬ S j) : n.Marked b := by
  constructor
  · rw [hc.word fun j hj => hd j (.inl hj)]
    exact h.header
  · rw [hc.word fun j hj => hd j (.inr hj)]
    exact h.footer

/-- The store with the tag of a block in its header and footer. -/
def withTags (m : Memory) (b : TaggedBlock) : Memory :=
  (m.setWord (b.1 - wordSize) b.2.word).setWord (b.1 + b.2.size - overhead) b.2.word

theorem setTags_eq {m : Memory} {block size : Nat} {status : Status}
    (he : (⟨size, status⟩ : Tag).Encodable) (hb : wordSize ≤ block) (hs : minBlock ≤ size)
    (hfit : block + size ≤ m.size + wordSize) (hm : m.size ≤ maxWord) :
    m.setTags block size status = .ok (m.withTags (block, ⟨size, status⟩)) := by
  simp only [wordSize, minBlock, maxWord] at hb hs hfit hm
  have h1 : block - wordSize + wordSize ≤ m.size := by simp only [wordSize]; omega
  have h2 : block + size - overhead + wordSize ≤ m.size := by
    simp only [wordSize, overhead]; omega
  unfold setTags header
  rw [Tag.encode_of_encodable he, ok_bind, difference_of_le hb, ok_bind, writeWord_of_le _ h1,
    ok_bind, footer_of_le (by simp only [overhead]; omega) (by simp only [offsetBound]; omega),
    ok_bind, writeWord_of_le _ (by rw [size_setWord]; exact h2)]
  rfl

theorem changesOnly_withTags (m : Memory) (b : TaggedBlock) :
    m.ChangesOnly (m.withTags b) (TagByte b) := by
  rw [withTags]
  exact ((changesOnly_setWord _ _ _).mono fun _ => .inl).trans
    ((changesOnly_setWord _ _ _).mono fun _ => .inr)

theorem word_withTags_header {m : Memory} {b : TaggedBlock} (hb : wordSize ≤ b.1)
    (hs : minBlock ≤ b.2.size) (hfit : b.1 + b.2.size ≤ m.size + wordSize) :
    (m.withTags b).word (b.1 - wordSize) = b.2.word := by
  simp only [wordSize, minBlock] at hb hs hfit
  rw [withTags, word_setWord_of_disjoint _ _ (.inl (by simp only [wordSize, overhead]; omega)),
    word_setWord_self _ _ (by simp only [wordSize]; omega)]

theorem word_withTags_footer {m : Memory} {b : TaggedBlock} (hs : minBlock ≤ b.2.size)
    (hfit : b.1 + b.2.size ≤ m.size + wordSize) :
    (m.withTags b).word (b.1 + b.2.size - overhead) = b.2.word := by
  simp only [wordSize, minBlock] at hs hfit
  rw [withTags, word_setWord_self _ _ (by
    rw [size_setWord]
    simp only [wordSize, overhead]
    omega)]

theorem marked_withTags {m : Memory} {b : TaggedBlock} (he : b.2.Encodable) (hb : wordSize ≤ b.1)
    (hs : minBlock ≤ b.2.size) (hfit : b.1 + b.2.size ≤ m.size + wordSize) :
    (m.withTags b).Marked b := by
  constructor
  · rw [word_withTags_header hb hs hfit]
    exact Tag.decode_word he (Nat.lt_of_lt_of_le (by decide) hs)
  · exact word_withTags_footer hs hfit

attribute [irreducible] withTags

/-- What tagging a block does to the store. -/
theorem setTags_spec {m : Memory} {b : TaggedBlock} (he : b.2.Encodable) (hb : wordSize ≤ b.1)
    (hs : minBlock ≤ b.2.size) (hfit : b.1 + b.2.size ≤ m.size + wordSize)
    (hm : m.size ≤ maxWord) :
    ∃ n, m.setTags b.1 b.2.size b.2.status = .ok n ∧ m.ChangesOnly n (TagByte b) ∧ n.Marked b ∧
      n.word (b.1 - wordSize) = b.2.word :=
  ⟨_, setTags_eq he hb hs hfit hm, changesOnly_withTags m b, marked_withTags he hb hs hfit,
    word_withTags_header hb hs hfit⟩

/-- What tagging a block and then the block behind it does to the store. -/
theorem setTags_adjoining {m : Memory} {b c : TaggedBlock} (heb : b.2.Encodable)
    (hec : c.2.Encodable) (hbc : b.1 + b.2.size = c.1) (hb : wordSize ≤ b.1)
    (hsb : minBlock ≤ b.2.size) (hsc : minBlock ≤ c.2.size)
    (hfit : c.1 + c.2.size ≤ m.size + wordSize) (hm : m.size ≤ maxWord) :
    ∃ n₁ n₂, m.setTags b.1 b.2.size b.2.status = .ok n₁ ∧
      n₁.setTags c.1 c.2.size c.2.status = .ok n₂ ∧
      m.ChangesOnly n₂ (fun j => ∃ d ∈ [b, c], TagByte d j) ∧
      ∀ d ∈ [b, c], n₂.Marked d ∧ n₂.word (d.1 - wordSize) = d.2.word := by
  obtain ⟨n₁, hn₁, hc₁, hm₁, hw₁⟩ := setTags_spec heb hb hsb (by omega) hm
  have hs₁ : n₁.size = m.size := hc₁.size
  obtain ⟨n₂, hn₂, hc₂, hm₂, hw₂⟩ := setTags_spec (m := n₁) hec (by omega) hsc
    (by rw [hs₁]; exact hfit) (by rw [hs₁]; exact hm)
  have happart : ∀ j, TagByte b j → ¬ TagByte c j := by
    intro j hj hj'
    simp only [TagByte, InWord, minBlock, overhead, wordSize] at *
    omega
  refine ⟨n₁, n₂, hn₁, hn₂, ?_, List.forall_mem_cons.mpr ⟨⟨hm₁.of_changesOnly hc₂ happart, ?_⟩,
    List.forall_mem_singleton.mpr ⟨hm₂, hw₂⟩⟩⟩
  · exact (hc₁.mono fun j hj => ⟨b, by simp, hj⟩).trans (hc₂.mono fun j hj => ⟨c, by simp, hj⟩)
  · exact (hc₂.word fun j hj => happart j (.inl hj)).trans hw₁

/-! ## Reading links and tags -/

/-- A link that was read is a word, and lies in the store. -/
theorem pred_eq_ok {m : Memory} {node x : Nat} (h : m.pred node = .ok x) :
    node + wordSize ≤ m.size ∧ x ≤ maxWord := by
  unfold pred readWord at h
  split at h
  · obtain rfl := Except.ok.inj h
    have := (m.word node).toNat_lt
    exact ⟨‹_›, by simp only [maxWord]; omega⟩
  · cases h

theorem succ_eq_ok {m : Memory} {node x : Nat} (h : m.succ node = .ok x) :
    node + nodeSize ≤ m.size ∧ x ≤ maxWord :=
  have h : m.pred (node + wordSize) = .ok x := h
  pred_eq_ok h

theorem tagAt_of_le {m : Memory} {i : Nat} (h : i + wordSize ≤ m.size) :
    m.tagAt i = .ok (Tag.decode (m.word i)) := by
  unfold tagAt
  rw [readWord_of_le h]
  rfl

theorem tagOf_of_le {m : Memory} {block : Nat} (hb : wordSize ≤ block) (h : block ≤ m.size) :
    m.tagOf block = .ok (Tag.decode (m.word (block - wordSize))) := by
  unfold tagOf
  rw [header, difference_of_le hb, ok_bind, tagAt_of_le (by omega)]

/-- A tag that was read is that in the word before the block. -/
theorem tagOf_eq_ok {m : Memory} {block : Nat} {tag : Option Tag} (h : m.tagOf block = .ok tag) :
    wordSize ≤ block ∧ block ≤ m.size ∧ Tag.decode (m.word (block - wordSize)) = tag := by
  obtain ⟨i, hi, h⟩ := bind_eq_ok.mp h
  obtain ⟨hle, rfl⟩ := difference_eq_ok.mp hi
  unfold tagAt readWord at h
  split at h
  · exact ⟨hle, by omega, Except.ok.inj h⟩
  · cases h

theorem tagBefore_of_le {m : Memory} {block : Nat} (hb : overhead ≤ block)
    (h : block ≤ m.size + wordSize) :
    m.tagBefore block = .ok (Tag.decode (m.word (block - overhead))) := by
  simp only [overhead, wordSize] at hb h
  unfold tagBefore
  rw [difference_of_le hb, ok_bind,
    tagAt_of_le (by simp only [wordSize]; omega)]

theorem blockSize_of_marked {m : Memory} {b : TaggedBlock} (hm : m.Marked b)
    (hb : wordSize ≤ b.1) (h : b.1 ≤ m.size) : m.blockSize b.1 = .ok b.2.size := by
  rw [blockSize, tagOf_of_le hb h, ok_bind, hm.header]
  rfl

end Memory

end SegFit
