/-
  On a heap that words can address, the guarded operations agree with the plain ones, whatever
  its bytes.  An operation that ends without a fault has made all of its accesses inside the
  store, so that no sum and no link on the way was too large; then the guarded operation ends
  alike (`guardedAcquire_of_ok`, `guardedRelease_of_ok`, `guardedResize_of_ok`).  What the store
  has at the end it had before, or got within the limit (`Grows`).
-/
import SegFit.Guarded.Heap
import SegFit.Proofs.Acquiring
import SegFit.Proofs.Views

namespace SegFit

theorem link_of_le {n : Nat} (h : n ≤ maxWord) : link n = .ok n :=
  if_pos (Memory.toNat_link h)

theorem offset_of_le_maxWord {n : Nat} (h : n ≤ 2 * maxWord) : offset n = .ok n :=
  offset_of_lt (by simp only [maxWord, offsetBound] at *; omega)

namespace Memory

variable {m m' : Memory} {node x block size total : Nat} {status : Status}

/-! ## Accesses that succeeded -/

theorem setPred_eq_ok (h : m.setPred node x = .ok m') :
    node + wordSize ≤ m.size ∧ m'.size = m.size := by
  obtain ⟨hle, rfl⟩ := writeWord_eq_ok_iff.mp h
  exact ⟨hle, size_setWord ..⟩

theorem setSucc_eq_ok (h : m.setSucc node x = .ok m') :
    node + nodeSize ≤ m.size ∧ m'.size = m.size :=
  have h : m.setPred (node + wordSize) x = .ok m' := h
  setPred_eq_ok h

theorem setTags_eq_ok (h : m.setTags block size status = .ok m') :
    Tag.Encodable ⟨size, status⟩ ∧ block ≤ m.size ∧ block + size ≤ m.size + wordSize ∧
      m'.size = m.size := by
  obtain ⟨w, hw, h⟩ := bind_eq_ok.mp h
  obtain ⟨i, hi, h⟩ := bind_eq_ok.mp h
  obtain ⟨m₁, h₁, h⟩ := bind_eq_ok.mp h
  obtain ⟨k, hk, h⟩ := bind_eq_ok.mp h
  obtain ⟨s, hs, hk⟩ := bind_eq_ok.mp hk
  obtain ⟨hle, rfl⟩ := difference_eq_ok.mp hi
  obtain ⟨-, rfl⟩ := offset_eq_ok.mp hs
  obtain ⟨hle', rfl⟩ := difference_eq_ok.mp hk
  obtain ⟨hin, rfl⟩ := writeWord_eq_ok_iff.mp h₁
  obtain ⟨hin', rfl⟩ := writeWord_eq_ok_iff.mp h
  simp only [size_setWord, wordSize, overhead] at *
  refine ⟨?_, by omega, by omega, trivial⟩
  unfold Tag.encode at hw
  split at hw
  · assumption
  · cases hw

/-! ## Tags and lists -/

/-- A size reads back from the word of its tag. -/
theorem size_decode_word {t : Tag} (ht : t.Encodable) :
    ((Tag.decode t.word).map Tag.size).getD 0 = t.size := by
  by_cases hpos : 0 < t.size
  · rw [Tag.decode_word ht hpos]
    rfl
  · have hw := Tag.toNat_word ht
    have hbit := Tag.bit_le t.status
    unfold Tag.decode
    split
    · show 0 = t.size
      omega
    · show t.word.toNat / alignment * alignment = t.size
      simp only [alignment]
      omega

theorem guardedSetTags_of_ok (h : m.setTags block size status = .ok m') :
    m.guardedSetTags block size status = .ok m' := by
  obtain ⟨ht, -⟩ := setTags_eq_ok h
  unfold guardedSetTags
  rw [Tag.encode_of_encodable ht, ok_bind, if_pos (size_decode_word ht), h]

theorem guardedUnlink_of_ok (h : m.unlink block = .ok m') :
    m.guardedUnlink block = .ok m' ∧ m'.size = m.size ∧ block ≤ m.size := by
  obtain ⟨pred, hpred, h⟩ := bind_eq_ok.mp h
  obtain ⟨succ, hsucc, h⟩ := bind_eq_ok.mp h
  obtain ⟨m₁, h₁, h⟩ := bind_eq_ok.mp h
  obtain ⟨hin, hp⟩ := pred_eq_ok hpred
  have hs := (succ_eq_ok hsucc).2
  have hs₁ := (setSucc_eq_ok h₁).2
  have hs₂ := (setPred_eq_ok h).2
  refine ⟨?_, by omega, by omega⟩
  unfold guardedUnlink
  rw [hpred, ok_bind, hsucc, ok_bind, link_of_le hs, ok_bind, h₁, ok_bind, link_of_le hp, ok_bind,
    h]

section

variable (hm : m.size ≤ maxWord)
include hm

theorem guardedPushFree_of_ok (h : m.pushFree block size = .ok m') :
    m.guardedPushFree block size = .ok m' ∧ m'.size = m.size := by
  obtain ⟨first, hfirst, h⟩ := bind_eq_ok.mp h
  obtain ⟨m₁, h₁, h⟩ := bind_eq_ok.mp h
  obtain ⟨m₂, h₂, h⟩ := bind_eq_ok.mp h
  obtain ⟨m₃, h₃, h⟩ := bind_eq_ok.mp h
  obtain ⟨hhead, hle⟩ := succ_eq_ok hfirst
  obtain ⟨hblock, hs₁⟩ := setPred_eq_ok h₁
  have hs₂ := (setSucc_eq_ok h₂).2
  have hs₃ := (setSucc_eq_ok h₃).2
  have hs := (setPred_eq_ok h).2
  refine ⟨?_, by omega⟩
  unfold guardedPushFree
  dsimp only
  rw [hfirst, ok_bind, link_of_le (by omega), ok_bind, h₁, ok_bind, link_of_le hle, ok_bind, h₂,
    ok_bind, link_of_le (by omega), ok_bind, h₃, ok_bind, ok_bind, h]

/-! ## Carving, merging, and the room of a block -/

theorem guardedCarve_of_ok {placed : Nat} (h : m.carve block total size = .ok (placed, m')) :
    m.guardedCarve block total size = .ok (placed, m') ∧ m'.size = m.size := by
  obtain ⟨rest, hrest, h⟩ := bind_eq_ok.mp h
  unfold guardedCarve
  rw [hrest, ok_bind]
  split at h
  · obtain ⟨m₁, h₁, h⟩ := bind_eq_ok.mp h
    obtain ⟨m₂, h₂, h⟩ := bind_eq_ok.mp h
    obtain ⟨m₃, h₃, h⟩ := bind_eq_ok.mp h
    obtain ⟨rfl, rfl⟩ := Prod.mk.inj (Except.ok.inj h)
    obtain ⟨-, -, hend, hs₁⟩ := setTags_eq_ok h₁
    obtain ⟨-, -, -, hs₂⟩ := setTags_eq_ok h₂
    obtain ⟨h₃', hs₃⟩ := guardedPushFree_of_ok (by omega) h₃
    refine ⟨?_, by omega⟩
    rw [if_pos ‹_›, guardedSetTags_of_ok h₁, ok_bind, offset_of_le_maxWord (by
      simp only [maxWord, wordSize] at *
      omega), ok_bind, guardedSetTags_of_ok h₂, ok_bind, h₃', ok_bind]
    rfl
  · obtain ⟨m₁, h₁, h⟩ := bind_eq_ok.mp h
    obtain ⟨rfl, rfl⟩ := Prod.mk.inj (Except.ok.inj h)
    obtain ⟨-, -, -, hs₁⟩ := setTags_eq_ok h₁
    refine ⟨?_, hs₁⟩
    rw [if_neg ‹_›, guardedSetTags_of_ok h₁, ok_bind]
    rfl

theorem guardedMerge_of_ok {prev next : Option Tag} {start merged : Nat} {merge : Merge}
    (h : m.mergeFree block size prev next = .ok ((start, merged, merge), m'))
    (hmerged : merged ≤ maxWord) :
    m.guardedMerge block size prev next = .ok ((start, merged, merge), m') ∧
      m'.size = m.size := by
  cases prev with
  | none =>
    cases next with
    | none =>
      cases h
      exact ⟨rfl, rfl⟩
    | some next =>
      obtain ⟨m₁, h₁, h⟩ := bind_eq_ok.mp h
      cases h
      obtain ⟨h₁', hs₁, hin⟩ := guardedUnlink_of_ok h₁
      refine ⟨?_, hs₁⟩
      show (offset (block + size) >>= fun after => _) = _
      rw [offset_of_le_maxWord (by omega), ok_bind, h₁', ok_bind, offset_of_le_maxWord (by omega)]
      rfl
  | some prev =>
    cases next with
    | none =>
      obtain ⟨start, hstart, h⟩ := bind_eq_ok.mp h
      obtain ⟨m₁, h₁, h⟩ := bind_eq_ok.mp h
      cases h
      obtain ⟨h₁', hs₁, -⟩ := guardedUnlink_of_ok h₁
      refine ⟨?_, hs₁⟩
      show (difference block prev.size >>= fun start => _) = _
      rw [hstart, ok_bind, h₁', ok_bind, offset_of_le_maxWord (by omega)]
      rfl
    | some next =>
      obtain ⟨start, hstart, h⟩ := bind_eq_ok.mp h
      obtain ⟨m₁, h₁, h⟩ := bind_eq_ok.mp h
      obtain ⟨m₂, h₂, h⟩ := bind_eq_ok.mp h
      cases h
      obtain ⟨h₁', hs₁, -⟩ := guardedUnlink_of_ok h₁
      obtain ⟨h₂', hs₂, hin⟩ := guardedUnlink_of_ok h₂
      refine ⟨?_, by omega⟩
      show (difference block prev.size >>= fun start => _) = _
      rw [hstart, ok_bind, h₁', ok_bind, offset_of_le_maxWord (by omega), ok_bind, h₂', ok_bind,
        offset_of_le_maxWord (by omega), ok_bind, offset_of_le_maxWord (by omega)]
      rfl

theorem guardedRelease_of_ok {done : Release} (h : m.release block = .ok (done, m')) :
    m.guardedRelease block = .ok (done, m') ∧ m'.size = m.size := by
  obtain ⟨freed, hfreed, h⟩ := bind_eq_ok.mp h
  obtain ⟨m₁, h₁, h⟩ := bind_eq_ok.mp h
  obtain ⟨prev, hprev, h⟩ := bind_eq_ok.mp h
  obtain ⟨next, hnext, h⟩ := bind_eq_ok.mp h
  obtain ⟨⟨⟨start, size, merge⟩, m₂⟩, h₂, h⟩ := bind_eq_ok.mp h
  obtain ⟨m₃, h₃, h⟩ := bind_eq_ok.mp h
  obtain ⟨m₄, h₄, h⟩ := bind_eq_ok.mp h
  obtain ⟨rfl, rfl⟩ := Prod.mk.inj (Except.ok.inj h)
  obtain ⟨-, -, hend, hs₁⟩ := setTags_eq_ok h₁
  obtain ⟨ht, -, -, hs₃⟩ := setTags_eq_ok h₃
  have hsize : size ≤ maxWord := Nat.le_trans ht.2 (by decide)
  obtain ⟨h₂', hs₂⟩ := guardedMerge_of_ok (by omega) h₂ hsize
  obtain ⟨h₄', hs₄⟩ := guardedPushFree_of_ok (by omega) h₄
  refine ⟨?_, by omega⟩
  unfold guardedRelease
  rw [hfreed, ok_bind, guardedSetTags_of_ok h₁, ok_bind, hprev, ok_bind, offset_of_le_maxWord (by
    simp only [maxWord, wordSize] at *
    omega), ok_bind, hnext, ok_bind, h₂', ok_bind]
  dsimp only
  rw [guardedSetTags_of_ok h₃, ok_bind, h₄', ok_bind]
  rfl

theorem guardedRoom_of_ok {room : Room} (h : m.room block size = .ok room) :
    m.guardedRoom block size = .ok room ∧ size ≤ room.total := by
  obtain ⟨tag, htag, h⟩ := bind_eq_ok.mp h
  have hin := (tagOf_eq_ok htag).2.1
  unfold guardedRoom
  rw [offset_of_le_maxWord (by omega), ok_bind, htag, ok_bind]
  cases tag with
  | none =>
    cases h
    exact ⟨rfl, Nat.le_refl _⟩
  | some next =>
    dsimp only at h ⊢
    split at h
    · obtain ⟨after, hafter, h⟩ := bind_eq_ok.mp h
      cases h
      have hin' := (tagOf_eq_ok hafter).2.1
      refine ⟨?_, Nat.le_add_right ..⟩
      rw [if_pos ‹_›, offset_of_le_maxWord (by omega), ok_bind, offset_of_le_maxWord (by omega),
        ok_bind, hafter, ok_bind]
      rfl
    · cases h
      exact ⟨if_neg ‹_›, Nat.le_refl _⟩

end

end Memory

/-- Where each step of a run agrees with another, and keeps what makes it agree, so does the
run. -/
theorem foldlM_agree {σ ι ε : Type} {f g : σ → ι → Except ε σ} {P : σ → Prop}
    (hstep : ∀ s i t, P s → f s i = .ok t → g s i = .ok t ∧ P t) :
    ∀ (is : List ι) {s t : σ}, P s → is.foldlM f s = .ok t → is.foldlM g s = .ok t ∧ P t := by
  intro is
  induction is with
  | nil =>
    intro s t hs he
    cases he
    exact ⟨rfl, hs⟩
  | cons i is ih =>
    intro s t hs he
    rw [List.foldlM_cons] at he ⊢
    obtain ⟨u, hu, he⟩ := bind_eq_ok.mp he
    obtain ⟨hu', hp⟩ := hstep s i u hs hu
    rw [hu', ok_bind]
    exact ih hp he

namespace Heap

variable {h h' : Heap} {limit block size shift : Nat} {absorbed : Option Nat}
  {cs : List TaggedBlock}

/-- From `h` to `h'` the store has kept its size, or has grown up to `limit` at most. -/
structure Grows (h : Heap) (limit : Nat) (h' : Heap) : Prop where
  le : h.size ≤ h'.size
  bounded : h'.size ≤ max h.size (min maxWord limit)

theorem Grows.of_size_eq (hs : h'.size = h.size) : h.Grows limit h' :=
  ⟨by omega, by omega⟩

theorem Grows.trans {h'' : Heap} (h₁ : h.Grows limit h') (h₂ : h'.Grows limit h'') :
    h.Grows limit h'' :=
  ⟨Nat.le_trans h₁.le h₂.le, by have := h₁.bounded; have := h₂.bounded; omega⟩

/-! ## Lists and their ends -/

theorem guardSentinels_of_le (hle : h.epilog + epilogBytes ≤ maxWord) :
    h.guardSentinels = .ok () := by
  unfold guardSentinels
  rw [offset_of_le_maxWord (by omega)]
  rfl

theorem guardedRemoveAny_of_ok (hrun : h.removeAny absorbed = .ok h') :
    h.guardedRemoveAny absorbed = .ok h' ∧ h'.size = h.size ∧ h'.epilog = h.epilog := by
  cases absorbed with
  | none =>
    cases hrun
    exact ⟨rfl, rfl, rfl⟩
  | some x =>
    obtain ⟨m, hm, hrun⟩ := bind_eq_ok.mp hrun
    cases hrun
    obtain ⟨hm', hs, -⟩ := Memory.guardedUnlink_of_ok hm
    refine ⟨?_, hs, rfl⟩
    show (h.mem.guardedUnlink x >>= fun m => _) = _
    rw [hm']
    rfl

theorem guardedLinkLast_of_ok {b last : Nat} (hsmall : h.size ≤ maxWord)
    (hrun : h.linkLast b last = .ok h') :
    h.guardedLinkLast b last = .ok h' ∧ h'.size = h.size := by
  obtain ⟨m₁, h₁, hrun⟩ := bind_eq_ok.mp hrun
  obtain ⟨m₂, h₂, hrun⟩ := bind_eq_ok.mp hrun
  obtain ⟨m₃, h₃, hrun⟩ := bind_eq_ok.mp hrun
  cases hrun
  obtain ⟨hnode, hs₁⟩ := Memory.setPred_eq_ok h₁
  obtain ⟨-, hs₂⟩ := Memory.setSucc_eq_ok h₂
  obtain ⟨hlast, hs₃⟩ := Memory.setSucc_eq_ok h₃
  simp only [Heap.size] at *
  refine ⟨?_, by omega⟩
  unfold guardedLinkLast
  dsimp only
  rw [link_of_le (by omega), ok_bind, h₁, ok_bind, link_of_le (Nat.zero_le _), ok_bind, h₂, ok_bind,
    link_of_le (by omega), ok_bind, h₃, ok_bind]
  rfl

theorem guardedMoveEpilog_of_ok (hroom : h.epilog + shift + epilogBytes ≤ h.size)
    (hsmall : h.size ≤ maxWord) (hrun : h.moveEpilog shift = .ok h') :
    h.guardedMoveEpilog shift = .ok h' ∧ h'.size = h.size := by
  obtain ⟨lasts, hlasts, hrun⟩ := bind_eq_ok.mp hrun
  obtain ⟨epilog, hepilog, hrun⟩ := bind_eq_ok.mp hrun
  obtain ⟨m, hm, hrun⟩ := bind_eq_ok.mp hrun
  obtain ⟨-, rfl⟩ := offset_eq_ok.mp hepilog
  have hs : (⟨m, h.epilog + shift⟩ : Heap).size = h.size := by
    rw [Heap.size, Heap.size, ← (Memory.writeWord_eq_ok_iff.mp hm).2, Memory.size_setWord]
  -- Every link that is written is one into the store, which keeps its size.
  have hagree := foldlM_agree (P := fun s : Heap => s.size = h.size)
    (g := fun s (i : Nat × Nat) => s.guardedLinkLast i.2 i.1)
    (fun s i t hp hst => (guardedLinkLast_of_ok (hp ▸ hsmall) hst).imp_right (·.trans hp))
    lasts.zipIdx hs hrun
  refine ⟨?_, hagree.2⟩
  unfold guardedMoveEpilog
  rw [guardSentinels_of_le (by omega), ok_bind, hlasts, ok_bind, hepilog, ok_bind, hm, ok_bind]
  dsimp only
  rw [guardSentinels_of_le (by simp only; omega), ok_bind]
  exact hagree.1

/-! ## Growth -/

section

variable (hroom : h.epilog + epilogBytes ≤ h.size) (hsmall : h.size ≤ maxWord)
include hroom hsmall

theorem guardedStretch_of_ok {result : Except Exhausted Nat}
    (hrun : h.stretch limit block size absorbed = .ok (result, h')) :
    h.guardedStretch limit block size absorbed = .ok (result, h') ∧ h.Grows limit h' := by
  obtain ⟨span, hspan, hrun⟩ := bind_eq_ok.mp hrun
  obtain ⟨growth, hgrowth, hrun⟩ := bind_eq_ok.mp hrun
  unfold guardedStretch
  rw [offset_of_le_maxWord (by simp only [epilogBytes] at hroom; omega), ok_bind, hspan, ok_bind,
    hgrowth, ok_bind]
  cases hg : h.growthRefusal limit growth with
  | some cause =>
    rw [hg] at hrun
    cases hrun
    exact ⟨rfl, .of_size_eq rfl⟩
  | none =>
    rw [hg] at hrun
    obtain ⟨h₁, hrem, hrun⟩ := bind_eq_ok.mp hrun
    obtain ⟨h₂, hmove, hrun⟩ := bind_eq_ok.mp hrun
    obtain ⟨m, htags, hrun⟩ := bind_eq_ok.mp hrun
    cases hrun
    have hle := growthRefusal_eq_none.mp hg
    have hext : (h.extend growth).size = h.size + growth := Memory.size_extend ..
    obtain ⟨hrem', hs₁, he₁⟩ := guardedRemoveAny_of_ok hrem
    have he : (h.extend growth).epilog = h.epilog := rfl
    obtain ⟨hmove', hs₂⟩ := guardedMoveEpilog_of_ok (by omega) (by omega) hmove
    have hs₃ := (Memory.setTags_eq_ok htags).2.2.2
    simp only [Heap.size] at *
    refine ⟨?_, ?_, ?_⟩
    · rw [hrem', ok_bind, hmove', ok_bind, Memory.guardedSetTags_of_ok htags]
      rfl
    · simp only [Heap.size]
      omega
    · simp only [Heap.size]
      omega

theorem guardedGrowthPoint_of_ok {point : Nat × Bool} (hrun : h.growthPoint = .ok point) :
    h.guardedGrowthPoint = .ok point := by
  have hep : offset (h.epilog + wordSize) = .ok (h.epilog + wordSize) :=
    offset_of_le_maxWord (by simp only [epilogBytes] at hroom; omega)
  obtain ⟨i, hi, hrun⟩ := bind_eq_ok.mp hrun
  obtain ⟨tag, htag, hrun⟩ := bind_eq_ok.mp hrun
  unfold guardedGrowthPoint
  rw [hi, ok_bind, htag, ok_bind, hep]
  exact hrun

/-! ## Operations -/

theorem guardedAcquire_of_ok {result : Except Exhausted Grant}
    (hrun : h.acquire limit size = .ok (result, h')) :
    h.guardedAcquire limit size = .ok (result, h') ∧ h.Grows limit h' := by
  obtain ⟨found, hfound, hrun⟩ := bind_eq_ok.mp hrun
  unfold guardedAcquire
  rw [guardSentinels_of_le (by omega), ok_bind, hfound, ok_bind]
  cases found with
  | some block =>
    obtain ⟨total, htotal, hrun⟩ := bind_eq_ok.mp hrun
    obtain ⟨h₁, hrem, hrun⟩ := bind_eq_ok.mp hrun
    obtain ⟨⟨placed, m⟩, hcarve, hrun⟩ := bind_eq_ok.mp hrun
    obtain ⟨m₁, hunlink, hrem⟩ := bind_eq_ok.mp hrem
    cases hrem
    cases hrun
    obtain ⟨hunlink', hs₁, -⟩ := Memory.guardedUnlink_of_ok hunlink
    simp only [Heap.size] at *
    obtain ⟨hcarve', hs₂⟩ := Memory.guardedCarve_of_ok (by omega) hcarve
    refine ⟨?_, .of_size_eq (by simp only [Heap.size]; omega)⟩
    rw [htotal, ok_bind, hunlink', ok_bind, hcarve', ok_bind]
    rfl
  | none =>
    obtain ⟨⟨block, isLast⟩, hpoint, hrun⟩ := bind_eq_ok.mp hrun
    obtain ⟨⟨result, h₁⟩, hstretch, hrun⟩ := bind_eq_ok.mp hrun
    cases hrun
    obtain ⟨hstretch', hgrows⟩ := guardedStretch_of_ok hroom hsmall hstretch
    refine ⟨?_, hgrows⟩
    dsimp only
    rw [guardedGrowthPoint_of_ok hroom hsmall hpoint, ok_bind]
    dsimp only
    rw [hstretch', ok_bind]
    rfl

theorem guardedResize_of_ok {result : Except Exhausted Resized}
    (hrun : h.resize limit block size = .ok (result, h')) :
    h.guardedResize limit block size = .ok (result, h') ∧ h.Grows limit h' := by
  obtain ⟨old, hold, hrun⟩ := bind_eq_ok.mp hrun
  obtain ⟨room, hrooms, hrun⟩ := bind_eq_ok.mp hrun
  obtain ⟨hrooms', htotal⟩ := Memory.guardedRoom_of_ok hsmall hrooms
  unfold guardedResize
  rw [hold, ok_bind, hrooms', ok_bind]
  split at hrun
  · obtain ⟨h₁, hrem, hrun⟩ := bind_eq_ok.mp hrun
    obtain ⟨⟨placed, m⟩, hcarve, hrun⟩ := bind_eq_ok.mp hrun
    cases hrun
    obtain ⟨hrem', hs₁, -⟩ := guardedRemoveAny_of_ok hrem
    simp only [Heap.size] at *
    obtain ⟨hcarve', hs₂⟩ := Memory.guardedCarve_of_ok (by omega) hcarve
    refine ⟨?_, .of_size_eq (by simp only [Heap.size]; omega)⟩
    rw [if_pos ‹_›, hrem', ok_bind, hcarve', ok_bind]
    rfl
  · split at hrun
    · obtain ⟨⟨result, h₁⟩, hstretch, hrun⟩ := bind_eq_ok.mp hrun
      cases hrun
      obtain ⟨hstretch', hgrows⟩ := guardedStretch_of_ok hroom hsmall hstretch
      refine ⟨?_, hgrows⟩
      rw [if_neg ‹_›, if_pos ‹_›, hstretch', ok_bind]
      dsimp only
      rw [difference_of_le htotal, ok_bind]
      rfl
    · cases hrun
      refine ⟨?_, .of_size_eq rfl⟩
      rw [if_neg ‹_›, if_neg ‹_›]
      rfl

omit hroom in
theorem guardedRelease_of_ok {done : Release} (hrun : h.release block = .ok (done, h')) :
    h.guardedRelease block = .ok (done, h') ∧ h'.size = h.size := by
  obtain ⟨⟨done, m⟩, hm, hrun⟩ := bind_eq_ok.mp hrun
  cases hrun
  obtain ⟨hm', hs⟩ := Memory.guardedRelease_of_ok hsmall hm
  refine ⟨?_, hs⟩
  unfold guardedRelease
  rw [hm']
  rfl

/-! ## What only reads -/

theorem guardLive_of_ok {ptr : Nat} {answer : Except Refusal Nat}
    (hrun : h.liveSize ptr = .ok answer) : h.guardLive ptr = .ok () := by
  unfold liveSize at hrun
  unfold guardLive
  split at hrun
  · exact if_pos ‹_›
  · obtain ⟨tag, htag, -⟩ := bind_eq_ok.mp hrun
    obtain ⟨hw, hin, hd⟩ := Memory.tagOf_eq_ok htag
    rw [if_neg ‹_›, htag, ok_bind]
    cases tag with
    | none => rfl
    | some tag =>
      have ht := Tag.encodable_of_decode hd
      have hsize : tag.size ≤ maxBlock := ht.2
      have hsum : ptr - wordSize + tag.size ≤ 2 * maxWord := by
        simp only [Heap.size, maxBlock, maxWord] at *
        omega
      dsimp only
      rw [header, difference_of_le hw, ok_bind, offset_of_le_maxWord hsum, ok_bind,
        Tag.encode_of_encodable ht]
      rfl

theorem Chain.guardWalk {block : Nat} (hb : wordSize ≤ block) (hc : h.Chain block cs) :
    h.guardWalk block = .ok () := by
  have hhead : ∀ {block : Nat}, wordSize ≤ block → header block = .ok (block - wordSize) :=
    fun hb => difference_of_le hb
  induction hc with
  | nil zero =>
    unfold Heap.guardWalk
    rw [hhead hb, ok_bind, if_neg (by omega), Memory.tagOf_of_le hb (by
      simp only [Heap.size, epilogBytes] at *
      omega), ok_bind]
    rw [Nat.add_sub_cancel, zero]
    rfl
  | @cons block tag rest header large footer tail ih =>
    have hle := tail.le
    unfold Heap.guardWalk
    rw [hhead hb, ok_bind, if_neg (by simp only [minBlock, wordSize] at *; omega),
      Memory.tagOf_of_le hb (by simp only [Heap.size, epilogBytes] at *; omega), ok_bind, header]
    dsimp only
    simp only [epilogBytes] at hroom
    rw [offset_of_le_maxWord (by omega), ok_bind, if_neg (by omega),
      Tag.encode_of_encodable (Tag.encodable_of_decode header), ok_bind,
      offset_of_le_maxWord (by omega), ok_bind]
    exact ih (by omega)

theorem Consistent.guardCheck {ls : Nat → List Nat} (hk : h.Consistent cs ls) :
    h.guardCheck = .ok () := by
  unfold Heap.guardCheck
  rw [guardSentinels_of_le (by omega), ok_bind, hk.chain.guardWalk hroom hsmall (by decide)]

end

end Heap

end SegFit
