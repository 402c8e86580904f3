/-
  The sentinels laid out and moved.  Both happen bucket by bucket: each step writes the nodes
  of one bucket, which no other step touches (`foldlM_writers`).  A new heap has empty lists
  (`layOut_spec`), and moving the epilog nodes keeps every list (`Threaded.moveEpilog`), however
  the old and the new nodes overlap, since the last node of each list is read beforehand.
-/
import SegFit.Proofs.Strands

namespace SegFit

namespace Heap

/-- Writers with disjoint traces, one after the other: what each makes true stays true. -/
theorem foldlM_writers {f : Heap → Nat → Except Fault Heap} {A : Nat → Nat → Prop}
    {Q : Nat → Memory → Prop} {n e : Nat} (bs : List Nat) (hn : bs.Nodup)
    (hstep : ∀ b ∈ bs, ∀ m : Memory, m.size = n →
      ∃ m', f ⟨m, e⟩ b = .ok ⟨m', e⟩ ∧ m.ChangesOnly m' (A b) ∧ Q b m')
    (hkeep : ∀ b ∈ bs, ∀ m m' : Memory,
      m.ChangesOnly m' (fun j => ∃ c ∈ bs, c ≠ b ∧ A c j) → Q b m → Q b m')
    (m : Memory) (hm : m.size = n) :
    ∃ m', bs.foldlM f ⟨m, e⟩ = .ok ⟨m', e⟩ ∧
      m.ChangesOnly m' (fun j => ∃ b ∈ bs, A b j) ∧ ∀ b ∈ bs, Q b m' := by
  induction bs generalizing m with
  | nil => exact ⟨m, rfl, .refl m _, fun b hb => absurd hb List.not_mem_nil⟩
  | cons b bs ih =>
    obtain ⟨hb, hn⟩ := List.nodup_cons.mp hn
    obtain ⟨m₁, h₁, hc₁, hq₁⟩ := hstep b List.mem_cons_self m hm
    obtain ⟨m₂, h₂, hc₂, hq₂⟩ := ih hn (fun c hc => hstep c (List.mem_cons_of_mem b hc))
      (fun c hc k k' hk => hkeep c (List.mem_cons_of_mem b hc) k k'
        (hk.mono fun j ⟨d, hd, hdc, ha⟩ => ⟨d, List.mem_cons_of_mem b hd, hdc, ha⟩))
      m₁ (hc₁.size.trans hm)
    refine ⟨m₂, ?_, ?_, ?_⟩
    · rw [List.foldlM_cons, h₁, ok_bind, h₂]
    · exact (hc₁.mono fun j ha => ⟨b, List.mem_cons_self, ha⟩).trans
        (hc₂.mono fun j ⟨c, hc, ha⟩ => ⟨c, List.mem_cons_of_mem b hc, ha⟩)
    · intro c hc
      rcases List.mem_cons.mp hc with rfl | hc
      · refine hkeep c List.mem_cons_self m₁ m₂ (hc₂.mono ?_) hq₁
        exact fun j ⟨d, hd, ha⟩ => ⟨d, List.mem_cons_of_mem c hd, fun hdc => hb (hdc ▸ hd), ha⟩
      · exact hq₂ c hc

/-! ## A new heap -/

/-- The two sentinels of bucket `b` link to one another and to nothing else. -/
structure Bare (h : Heap) (b : Nat) : Prop where
  prologPred : h.mem.predLink (prologNode b) = 0
  prologSucc : h.mem.succLink (prologNode b) = h.epilogNode b
  epilogPred : h.mem.predLink (h.epilogNode b) = prologNode b
  epilogSucc : h.mem.succLink (h.epilogNode b) = 0

/-- The bytes of the two sentinels of bucket `b`. -/
def SentinelByte (h : Heap) (b j : Nat) : Prop :=
  InNode (prologNode b) j ∨ InNode (h.epilogNode b) j

theorem apart_sentinels {h : Heap} {b c : Nat} (he : prologEnd ≤ h.epilog)
    (hb : b < Bucket.count) : Apart (prologNode b) (h.epilogNode c) := by
  simp only [Apart, prologNode, epilogNode, nodeSize, wordSize, prologEnd, Bucket.count] at *
  omega

theorem apart_prologNode {b c : Nat} (h : b ≠ c) : Apart (prologNode b) (prologNode c) := by
  simp only [Apart, prologNode, nodeSize, wordSize]
  omega

theorem apart_epilogNode (h : Heap) {b c : Nat} (hbc : b ≠ c) :
    Apart (h.epilogNode b) (h.epilogNode c) := by
  simp only [Apart, epilogNode, nodeSize, wordSize]
  omega

theorem Bare.of_changesOnly {h : Heap} {b : Nat} {n : Memory} {S : Nat → Prop} (hb : h.Bare b)
    (hc : h.mem.ChangesOnly n S) (hd : ∀ j, h.SentinelByte b j → ¬ S j) :
    Bare ⟨n, h.epilog⟩ b := by
  constructor
  · exact (Memory.predLink_eq hc fun j hj => hd j (.inl (inNode_of_pred hj))).trans hb.prologPred
  · exact (Memory.succLink_eq hc fun j hj => hd j (.inl (inNode_of_succ hj))).trans hb.prologSucc
  · exact (Memory.predLink_eq hc fun j hj => hd j (.inr (inNode_of_pred hj))).trans hb.epilogPred
  · exact (Memory.succLink_eq hc fun j hj => hd j (.inr (inNode_of_succ hj))).trans hb.epilogSucc

/-- Linking the sentinels of one bucket. -/
theorem emptyList_spec {h : Heap} {b : Nat} (hb : b < Bucket.count) (he : prologEnd ≤ h.epilog)
    (hs : h.epilog + epilogBytes ≤ h.size) (hm : h.size ≤ maxWord) :
    ∃ m, h.emptyList b = .ok ⟨m, h.epilog⟩ ∧ h.mem.ChangesOnly m (h.SentinelByte b) ∧
      Bare ⟨m, h.epilog⟩ b := by
  have ha : Apart (prologNode b) (h.epilogNode b) := apart_sentinels he hb
  have hp : prologNode b + nodeSize ≤ h.mem.size := by
    simp only [prologNode, nodeSize, wordSize, prologEnd, epilogBytes, Bucket.count, size] at *
    omega
  have hn : h.epilogNode b + nodeSize ≤ h.mem.size := by
    simp only [epilogNode, nodeSize, wordSize, epilogBytes, Bucket.count, size] at *
    omega
  have hpw : prologNode b ≤ maxWord := by simp only [size] at hm; omega
  have hnw : h.epilogNode b ≤ maxWord := by simp only [size] at hm; omega
  generalize hm : (((h.mem.withPred (prologNode b) 0).withSucc (prologNode b)
    (h.epilogNode b)).withPred (h.epilogNode b) (prologNode b)).withSucc (h.epilogNode b) 0 = m
  have hrun : h.emptyList b = .ok ⟨m, h.epilog⟩ := by
    unfold emptyList
    rw [Memory.setPred_eq _ hp, ok_bind, Memory.setSucc_eq _ (by simpa using hp),
      ok_bind, Memory.setPred_eq _ (by simpa using hn), ok_bind,
      Memory.setSucc_eq _ (by simpa using hn), hm]
    rfl
  have h₁ : m.predLink (prologNode b) = 0 := by
    rw [← hm, Memory.predLink_withSucc_of_apart ha, Memory.predLink_withPred_of_apart ha,
      Memory.predLink_withSucc_self, Memory.predLink_withPred hp (Nat.zero_le _)]
  have h₂ : m.succLink (prologNode b) = h.epilogNode b := by
    rw [← hm, Memory.succLink_withSucc_of_apart ha, Memory.succLink_withPred_of_apart ha,
      Memory.succLink_withSucc (by simpa using hp) hnw]
  have h₃ : m.predLink (h.epilogNode b) = prologNode b := by
    rw [← hm, Memory.predLink_withSucc_self, Memory.predLink_withPred (by simpa using hn) hpw]
  have h₄ : m.succLink (h.epilogNode b) = 0 := by
    rw [← hm, Memory.succLink_withSucc (by simpa using hn) (Nat.zero_le _)]
  refine ⟨m, hrun, ?_, h₁, h₂, h₃, h₄⟩
  rw [← hm]
  refine .trans (.trans (.trans ((Memory.changesOnly_withPred _ _ _).mono ?_)
    ((Memory.changesOnly_withSucc _ _ _).mono ?_))
    ((Memory.changesOnly_withPred _ _ _).mono ?_)) ((Memory.changesOnly_withSucc _ _ _).mono ?_)
  · exact fun j hj => .inl (inNode_of_pred hj)
  · exact fun j hj => .inl (inNode_of_succ hj)
  · exact fun j hj => .inr (inNode_of_pred hj)
  · exact fun j hj => .inr (inNode_of_succ hj)

/-- A heap laid out in a store of the right size has empty lists and no blocks. -/
theorem layOut_spec {m : Memory} (hm : m.size = emptySize) :
    ∃ n, layOut m = .ok ⟨n, firstHeader⟩ ∧ n.size = emptySize ∧ n.word prologEnd = 0 ∧
      n.word firstHeader = 0 ∧ ∀ b < Bucket.count, Bare ⟨n, firstHeader⟩ b := by
  have h₁ : prologEnd + wordSize ≤ m.size := by rw [hm]; decide
  have h₂ : firstHeader + wordSize ≤ (m.setWord prologEnd 0).size := by
    rw [Memory.size_setWord, hm]; decide
  have hle : prologEnd ≤ firstHeader := by decide
  generalize hm₀ : (m.setWord prologEnd 0).setWord firstHeader 0 = m₀
  have hs₀ : m₀.size = emptySize := by
    rw [← hm₀, Memory.size_setWord, Memory.size_setWord, hm]
  obtain ⟨n, hn, hc, hq⟩ := foldlM_writers (f := emptyList) (e := firstHeader) (n := emptySize)
    (A := SentinelByte ⟨m, firstHeader⟩) (Q := fun b k => Bare ⟨k, firstHeader⟩ b)
    (List.range Bucket.count) List.nodup_range
    (fun b hb k hk => by
      have hb := List.mem_range.mp hb
      have hlow : firstHeader + epilogBytes ≤ k.size := Nat.le_of_eq hk.symm
      have hsmall : k.size ≤ maxWord := by rw [hk]; decide
      exact emptyList_spec (h := ⟨k, firstHeader⟩) hb hle hlow hsmall)
    (fun b hb k k' hk hq => by
      have hb := List.mem_range.mp hb
      refine hq.of_changesOnly hk fun j hj ⟨c, hc, hcb, hs⟩ => ?_
      have hc := List.mem_range.mp hc
      rcases hj with hj | hj <;> rcases hs with hs | hs
      · exact (apart_prologNode hcb).not_inNode hs hj
      · exact (apart_sentinels (h := ⟨m, firstHeader⟩) hle hb).not_inNode hj hs
      · exact (apart_sentinels (h := ⟨m, firstHeader⟩) hle hc).not_inNode hs hj
      · exact (apart_epilogNode ⟨m, firstHeader⟩ hcb).not_inNode hs hj)
    m₀ hs₀
  have hkeep : ∀ i, prologEnd ≤ i → i + wordSize ≤ firstHeader + wordSize →
      n.word i = m₀.word i := by
    intro i h1 h2
    refine hc.word fun j hj ⟨b, hb, hs⟩ => ?_
    have hb := List.mem_range.mp hb
    simp only [SentinelByte, InNode, InWord, prologNode, epilogNode, nodeSize, wordSize, prologEnd,
      firstHeader, Bucket.count] at *
    omega
  refine ⟨n, ?_, hc.size.trans hs₀, ?_, ?_, fun b hb => ?_⟩
  · unfold layOut
    rw [Memory.writeWord_of_le _ h₁, ok_bind, Memory.writeWord_of_le _ h₂, ok_bind, hm₀, hn]
  · rw [hkeep _ (Nat.le_refl _) (by decide), ← hm₀,
      Memory.word_setWord_of_disjoint _ _ (by decide), Memory.word_setWord_self _ _ h₁]
  · rw [hkeep _ (by decide) (Nat.le_refl _), ← hm₀, Memory.word_setWord_self _ _ h₂]
  · exact hq b (List.mem_range.mpr hb)

/-! ## Moving the epilog -/

/-- The last node of the list of bucket `b`, its prolog node if the list is empty. -/
def lastNode (ls : Nat → List Nat) (b : Nat) : Nat :=
  (ls b).getLastD (prologNode b)

theorem exists_lastNode (ls : Nat → List Nat) (b : Nat) :
    ∃ l, prologNode b :: ls b = l ++ [lastNode ls b] := by
  rcases List.eq_nil_or_concat (ls b) with h | ⟨l, x, h⟩
  · exact ⟨[], by simp [lastNode, h]⟩
  · exact ⟨prologNode b :: l, by simp [lastNode, h]⟩

/-- The bytes that moving the epilog node of bucket `b` writes. -/
def LastByte (h : Heap) (ls : Nat → List Nat) (b j : Nat) : Prop :=
  InNode (h.epilogNode b) j ∨ InWord (lastNode ls b + wordSize) j

/-- The last node of bucket `b` and its epilog node link to one another. -/
structure Ended (h : Heap) (ls : Nat → List Nat) (b : Nat) : Prop where
  pred : h.mem.predLink (h.epilogNode b) = lastNode ls b
  succ : h.mem.succLink (h.epilogNode b) = 0
  last : h.mem.succLink (lastNode ls b) = h.epilogNode b

theorem linkLast_spec {h : Heap} {ls : Nat → List Nat} {b : Nat}
    (ha : Apart (lastNode ls b) (h.epilogNode b)) (hl : lastNode ls b + nodeSize ≤ h.mem.size)
    (he : h.epilogNode b + nodeSize ≤ h.mem.size) (hlw : lastNode ls b ≤ maxWord)
    (hew : h.epilogNode b ≤ maxWord) :
    ∃ m, h.linkLast b (lastNode ls b) = .ok ⟨m, h.epilog⟩ ∧
      h.mem.ChangesOnly m (h.LastByte ls b) ∧ Ended ⟨m, h.epilog⟩ ls b := by
  generalize hp : lastNode ls b = p at ha hl hlw ⊢
  generalize hm : ((h.mem.withPred (h.epilogNode b) p).withSucc (h.epilogNode b) 0).withSucc p
    (h.epilogNode b) = m
  have hrun : h.linkLast b p = .ok ⟨m, h.epilog⟩ := by
    simp only [linkLast]
    rw [Memory.setPred_eq _ he, ok_bind, Memory.setSucc_eq _ (by simpa using he), ok_bind,
      Memory.setSucc_eq _ (by simpa using hl), hm]
    rfl
  have h₁ : m.predLink (h.epilogNode b) = lastNode ls b := by
    rw [← hm, Memory.predLink_withSucc_of_apart ha.symm, Memory.predLink_withSucc_self,
      Memory.predLink_withPred he hlw, hp]
  have h₂ : m.succLink (h.epilogNode b) = 0 := by
    rw [← hm, Memory.succLink_withSucc_of_apart ha.symm,
      Memory.succLink_withSucc (by simpa using he) (Nat.zero_le _)]
  have h₃ : m.succLink (lastNode ls b) = h.epilogNode b := by
    rw [← hm, hp, Memory.succLink_withSucc (by simpa using hl) hew]
  refine ⟨m, hrun, ?_, h₁, h₂, h₃⟩
  rw [← hm]
  refine .trans (.trans ((Memory.changesOnly_withPred _ _ _).mono ?_)
    ((Memory.changesOnly_withSucc _ _ _).mono ?_)) ((Memory.changesOnly_withSucc _ _ _).mono ?_)
  · exact fun j hj => .inl (inNode_of_pred hj)
  · exact fun j hj => .inl (inNode_of_succ hj)
  · exact fun j hj => .inr (hp ▸ hj)

variable {h : Heap} {ls : Nat → List Nat}

theorem lastNode_mem_strand (h : Heap) (ls : Nat → List Nat) (b : Nat) :
    lastNode ls b ∈ h.strand ls b := by
  obtain ⟨l, hl⟩ := exists_lastNode ls b
  rw [strand, hl]
  simp

/-- The node before the epilog node is the last one of the list. -/
theorem Threaded.predLink_epilogNode (ht : h.Threaded ls) {b : Nat} (hb : b < Bucket.count) :
    h.mem.predLink (h.epilogNode b) = lastNode ls b := by
  obtain ⟨l, hl⟩ := exists_lastNode ls b
  have hk := ht.linked b hb
  rw [Holds, hl, List.append_assoc] at hk
  exact ((Memory.linked_append l _ _).mp hk).2.2.1

theorem Threaded.eq_or_apart (ht : h.Threaded ls) {b c x y : Nat} (hb : b < Bucket.count)
    (hc : c < Bucket.count) (hx : x ∈ h.strand ls b) (hy : y ∈ h.strand ls c) :
    x = y ∨ Apart x y := by
  by_cases hbc : b = c
  · subst hbc
    have h' : (h.strand ls b).Pairwise fun x y => x = y ∨ Apart x y :=
      (ht.apart b hb).imp .inr
    exact List.Pairwise.forall_of_forall_of_flip (fun x _ => .inl rfl) h'
      (h'.imp fun h => h.imp Eq.symm Apart.symm) hx hy
  · exact .inr (ht.across b hb c hc hbc x hx y hy)

theorem mapM_ok {α β ε : Type} {f : α → Except ε β} {g : α → β} (l : List α)
    (h : ∀ a ∈ l, f a = .ok (g a)) : l.mapM f = .ok (l.map g) := by
  induction l with
  | nil => rfl
  | cons a l ih =>
    rw [List.mapM_cons, h a List.mem_cons_self, ok_bind,
      ih fun b hb => h b (List.mem_cons_of_mem a hb)]
    rfl

/-- The last node of every list, read from the epilog nodes. -/
theorem Threaded.lastNodes (ht : h.Threaded ls) :
    (List.range Bucket.count).mapM (fun b => h.mem.pred (h.epilogNode b)) =
      .ok ((List.range Bucket.count).map (lastNode ls)) := by
  refine mapM_ok _ fun b hb => ?_
  have hb := List.mem_range.mp hb
  have hin := ht.inside b hb _ epilogNode_mem_strand
  rw [Memory.pred_of_le (by simp only [nodeSize, wordSize, size] at *; omega),
    ht.predLink_epilogNode hb]

/-- The ends of a list stay linked when none of their links changes. -/
theorem Ended.of_changesOnly {b : Nat} {n : Memory} {S : Nat → Prop} (hq : h.Ended ls b)
    (hc : h.mem.ChangesOnly n S)
    (hd : ∀ j, InNode (h.epilogNode b) j ∨ InWord (lastNode ls b + wordSize) j → ¬ S j) :
    Ended ⟨n, h.epilog⟩ ls b := by
  constructor
  · exact (Memory.predLink_eq hc fun j hj => hd j (.inl (inNode_of_pred hj))).trans hq.pred
  · exact (Memory.succLink_eq hc fun j hj => hd j (.inl (inNode_of_succ hj))).trans hq.succ
  · exact (Memory.succLink_eq hc fun j hj => hd j (.inr hj)).trans hq.last

/-- Linking the last nodes, all of them apart and below the epilog header, to the epilog nodes. -/
theorem linkLasts_spec {m : Memory} {e : Nat}
    (hlow : ∀ b < Bucket.count, lastNode ls b + nodeSize ≤ e)
    (hap : ∀ b < Bucket.count, ∀ c < Bucket.count, b ≠ c → Apart (lastNode ls b) (lastNode ls c))
    (hfit : e + epilogBytes ≤ m.size) (hsmall : e + epilogBytes ≤ maxWord + 1) :
    ∃ n, (List.range Bucket.count).foldlM (fun h b => Heap.linkLast h b (lastNode ls b))
        ⟨m, e⟩ = .ok ⟨n, e⟩ ∧
      m.ChangesOnly n (fun j => ∃ b ∈ List.range Bucket.count, LastByte ⟨m, e⟩ ls b j) ∧
      ∀ b ∈ List.range Bucket.count, Ended ⟨n, e⟩ ls b := by
  have hend : ∀ b < Bucket.count, ∀ c, Apart (lastNode ls b) (epilogNode ⟨m, e⟩ c) := by
    intro b hb c
    have := hlow b hb
    simp only [Apart, epilogNode, nodeSize, wordSize] at *
    omega
  refine foldlM_writers (f := fun h b => Heap.linkLast h b (lastNode ls b)) (e := e)
    (n := m.size) (A := LastByte ⟨m, e⟩ ls) (Q := fun b k => Ended ⟨k, e⟩ ls b) _ List.nodup_range
    (fun b hb k hk => ?_) (fun b hb k k' hk hq => ?_) m rfl
  · have hb := List.mem_range.mp hb
    have hnode : epilogNode ⟨k, e⟩ b + nodeSize ≤ k.size := by
      rw [hk]
      simp only [epilogNode, epilogBytes, Bucket.count, nodeSize, wordSize] at *
      omega
    have hlast : lastNode ls b + nodeSize ≤ k.size := by
      have := hlow b hb
      rw [hk]
      omega
    have hlastw : lastNode ls b ≤ maxWord := by
      have := hlow b hb
      simp only [epilogBytes, Bucket.count, nodeSize, wordSize] at *
      omega
    have hnodew : epilogNode ⟨k, e⟩ b ≤ maxWord := by
      simp only [epilogNode, epilogBytes, Bucket.count, nodeSize, wordSize] at *
      omega
    exact linkLast_spec (h := ⟨k, e⟩) (hend b hb b) hlast hnode hlastw hnodew
  · have hb := List.mem_range.mp hb
    refine hq.of_changesOnly hk ?_
    rintro j hj ⟨c, hc, hcb, hs⟩
    have hc := List.mem_range.mp hc
    rcases hj with hj | hj <;> rcases hs with hs | hs
    · exact (apart_epilogNode ⟨m, e⟩ hcb).not_inNode hs hj
    · exact (hend c hc b).not_inNode (inNode_of_succ hs) hj
    · exact (hend b hb c).not_inNode (inNode_of_succ hj) hs
    · exact (hap c hc b hb hcb).not_inNode (inNode_of_succ hs) (inNode_of_succ hj)

/-- The bytes below the new epilog header that moving the epilog writes, and those above it. -/
def MoveByte (ls : Nat → List Nat) (epilog j : Nat) : Prop :=
  (∃ b < Bucket.count, InWord (lastNode ls b + wordSize) j) ∨ epilog ≤ j

/-- Moving the epilog links the last node of each list to the new epilog node. -/
theorem Threaded.moveEpilog_ended (ht : h.Threaded ls) {shift : Nat}
    (hlow : ∀ b < Bucket.count, lastNode ls b + nodeSize ≤ h.epilog)
    (hfit : h.epilog + shift + epilogBytes ≤ h.size)
    (hsmall : h.epilog + shift + epilogBytes ≤ maxWord + 1) :
    ∃ m, h.moveEpilog shift = .ok ⟨m, h.epilog + shift⟩ ∧
      (∀ b < Bucket.count, Ended ⟨m, h.epilog + shift⟩ ls b) ∧ m.word (h.epilog + shift) = 0 ∧
      h.mem.ChangesOnly m (MoveByte ls (h.epilog + shift)) := by
  have hzip : ((List.range Bucket.count).map (lastNode ls)).zipIdx =
      (List.range Bucket.count).map fun b => (lastNode ls b, b) := rfl
  have hword : h.epilog + shift + wordSize ≤ h.mem.size := by
    simp only [epilogBytes, Bucket.count, nodeSize, wordSize, size] at *
    omega
  generalize hm₀ : h.mem.setWord (h.epilog + shift) 0 = m₀
  have hs₀ : m₀.size = h.size := by rw [← hm₀, Memory.size_setWord, size]
  have hc₀ : h.mem.ChangesOnly m₀ (InWord (h.epilog + shift)) :=
    hm₀ ▸ Memory.changesOnly_setWord ..
  obtain ⟨m, hm, hc, hq⟩ := linkLasts_spec (m := m₀) (e := h.epilog + shift)
    (fun b hb => Nat.le_trans (hlow b hb) (Nat.le_add_right ..))
    (fun b hb c hc hbc => ht.across b hb c hc hbc _ (lastNode_mem_strand h ls b) _
      (lastNode_mem_strand h ls c)) (hs₀ ▸ hfit) hsmall
  refine ⟨m, ?_, fun b hb => hq b (List.mem_range.mpr hb), ?_, ?_⟩
  · have hoff : h.epilog + shift < offsetBound := by
      simp only [offsetBound, maxWord, wordSize, size] at *
      omega
    unfold moveEpilog
    rw [ht.lastNodes, ok_bind, offset_of_lt hoff, ok_bind, Memory.writeWord_of_le _ hword, ok_bind,
      hzip, List.foldlM_map, hm₀]
    exact hm
  · rw [hc.word fun j hj hx => ?_, ← hm₀, Memory.word_setWord_self _ _ hword]
    obtain ⟨b, hb, hs⟩ := hx
    have hb := List.mem_range.mp hb
    have := hlow b hb
    simp only [LastByte, InNode, InWord, epilogNode, nodeSize, wordSize] at *
    omega
  · refine (hc₀.mono fun j hj => .inr hj.1).trans (hc.mono fun j hx => ?_)
    obtain ⟨b, hb, hs⟩ := hx
    rcases hs with hs | hs
    · refine .inr ?_
      simp only [InNode, epilogNode, wordSize] at hs
      omega
    · exact .inl ⟨b, List.mem_range.mp hb, hs⟩

theorem lastNode_eq_or_mem (ls : Nat → List Nat) (b : Nat) :
    lastNode ls b = prologNode b ∨ lastNode ls b ∈ ls b := by
  obtain ⟨l, hl⟩ := exists_lastNode ls b
  have hm : lastNode ls b ∈ prologNode b :: ls b := by simp [hl]
  exact List.mem_cons.mp hm

/-- A list stays linked up to its last node, and from there on goes to the new epilog node. -/
theorem Threaded.linked_of_ended (ht : h.Threaded ls) {m : Memory} {e b : Nat}
    (hb : b < Bucket.count) (hbelow : ∀ x ∈ prologNode b :: ls b, x + nodeSize ≤ e)
    (hend : Ended ⟨m, e⟩ ls b) (hc : h.mem.ChangesOnly m (MoveByte ls e)) :
    Holds ⟨m, e⟩ b (ls b) := by
  obtain ⟨l, hl⟩ := exists_lastNode ls b
  have hk := ht.linked b hb
  rw [Holds, hl, List.append_assoc] at hk
  have hk := ((Memory.linked_append l _ _).mp hk).1
  have hap := ht.apart b hb
  rw [strand, hl] at hap
  rw [Holds, hl, List.append_assoc]
  refine (Memory.linked_append l _ _).mpr ⟨hk.congr ?_ ?_, hend.last, hend.pred, trivial⟩
  · intro x hx
    rw [List.dropLast_concat] at hx
    have hx' : x ∈ prologNode b :: ls b := by simp [hl, hx]
    have hxs : x ∈ h.strand ls b := List.mem_append_left _ hx'
    have hne : x ≠ lastNode ls b := by
      have hp := (List.pairwise_append.mp (List.pairwise_append.mp hap).1).2.2
      exact (hp x hx _ List.mem_cons_self).ne
    refine Memory.succLink_eq hc fun j hj hs => ?_
    rcases hs with ⟨c, hcc, hs⟩ | hs
    · rcases ht.eq_or_apart hb hcc hxs (lastNode_mem_strand h ls c) with he | ha
      · by_cases hbc : b = c
        · exact hne (hbc ▸ he)
        · exact (ht.across b hb c hcc hbc x hxs _ (lastNode_mem_strand h ls c)).ne he
      · exact ha.not_inNode (inNode_of_succ hj) (inNode_of_succ hs)
    · have := hbelow x hx'
      simp only [InWord, nodeSize, wordSize] at *
      omega
  · intro x hx
    have hx' : x ∈ prologNode b :: ls b := hl ▸ List.mem_of_mem_tail hx
    have hxs : x ∈ h.strand ls b := List.mem_append_left _ hx'
    refine Memory.predLink_eq hc fun j hj hs => ?_
    rcases hs with ⟨c, hcc, hs⟩ | hs
    · rcases ht.eq_or_apart hb hcc hxs (lastNode_mem_strand h ls c) with he | ha
      · exact not_succ_of_pred hj (he ▸ hs)
      · exact ha.not_inNode (inNode_of_pred hj) (inNode_of_succ hs)
    · have := hbelow x hx'
      simp only [InWord, nodeSize, wordSize] at *
      omega

/-- Moving the epilog header and nodes up keeps all lists; below their new place only the
forward links of the last nodes change. -/
theorem Threaded.moveEpilog (ht : h.Threaded ls) (shift : Nat)
    (hlow : ∀ b < Bucket.count, ∀ x ∈ ls b, x + nodeSize ≤ h.epilog) (hp : prologEnd ≤ h.epilog)
    (hfit : h.epilog + shift + epilogBytes ≤ h.size)
    (hsmall : h.epilog + shift + epilogBytes ≤ maxWord + 1) :
    ∃ m, h.moveEpilog shift = .ok ⟨m, h.epilog + shift⟩ ∧
      Threaded ⟨m, h.epilog + shift⟩ ls ∧ m.word (h.epilog + shift) = 0 ∧
      (∀ b < Bucket.count, m.succLink (epilogNode ⟨m, h.epilog + shift⟩ b) = 0) ∧
      h.mem.ChangesOnly m (MoveByte ls (h.epilog + shift)) := by
  have hbelow : ∀ b < Bucket.count, ∀ x ∈ prologNode b :: ls b, x + nodeSize ≤ h.epilog := by
    intro b hb x hx
    rcases List.mem_cons.mp hx with rfl | hx
    · simp only [prologNode, nodeSize, wordSize, prologEnd, Bucket.count] at *
      omega
    · exact hlow b hb x hx
  obtain ⟨m, hm, hend, hzero, hc⟩ := ht.moveEpilog_ended
    (fun b hb => hbelow b hb _ (List.mem_cons.mpr (lastNode_eq_or_mem ls b))) hfit hsmall
  have hnew : ∀ b < Bucket.count, ∀ x ∈ prologNode b :: ls b, ∀ c,
      Apart x (epilogNode ⟨m, h.epilog + shift⟩ c) := by
    intro b hb x hx c
    have := hbelow b hb x hx
    simp only [Apart, epilogNode, nodeSize, wordSize] at *
    omega
  have hold : ∀ b, ∀ x ∈ prologNode b :: ls b, x ∈ h.strand ls b :=
    fun b x hx => List.mem_append_left _ hx
  have hin : ∀ b < Bucket.count, epilogNode ⟨m, h.epilog + shift⟩ b + nodeSize ≤ h.size := by
    intro b hb
    simp only [epilogNode, epilogBytes, Bucket.count, nodeSize, wordSize] at *
    omega
  refine ⟨m, hm, ⟨fun b hb => ht.linked_of_ended hb (fun x hx => ?_) (hend b hb) hc,
    fun b hb => ?_, ?_, ?_, ?_⟩, hzero, fun b hb => (hend b hb).succ, hc⟩
  · exact Nat.le_trans (hbelow b hb x hx) (Nat.le_add_right ..)
  · refine List.pairwise_append.mpr ⟨(List.pairwise_append.mp (ht.apart b hb)).1,
      List.pairwise_singleton _ _, fun x hx y hy => ?_⟩
    rw [List.mem_singleton.mp hy]
    exact hnew b hb x hx b
  · intro b hb c hcc hbc x hx y hy
    rcases List.mem_append.mp hx with hx | hx <;> rcases List.mem_append.mp hy with hy | hy
    · exact ht.across b hb c hcc hbc x (hold b x hx) y (hold c y hy)
    · exact List.mem_singleton.mp hy ▸ hnew b hb x hx c
    · exact (List.mem_singleton.mp hx ▸ hnew c hcc y hy b).symm
    · rw [List.mem_singleton.mp hx, List.mem_singleton.mp hy]
      exact apart_epilogNode _ hbc
  · intro b hb x hx
    show x + nodeSize ≤ m.size
    rw [hc.size]
    rcases List.mem_append.mp hx with hx | hx
    · exact ht.inside b hb x (hold b x hx)
    · rw [List.mem_singleton.mp hx]
      exact hin b hb
  · intro b hb x hx
    rcases List.mem_append.mp hx with hx | hx
    · exact ht.low b hb x (hold b x hx)
    · rw [List.mem_singleton.mp hx]
      simp only [epilogNode, epilogBytes, Bucket.count, nodeSize, wordSize] at *
      omega

end Heap

end SegFit
