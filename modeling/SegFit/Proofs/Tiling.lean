/-
  How blocks lie.  `Tiles start cs stop` speaks of offsets and sizes alone: the blocks `cs`
  fill `[start, stop)` without a gap.  A chain is a tiling whose tags are in the store
  (`chain_iff`), so a write that meets no tag keeps the chain, and a stretch of blocks can be
  exchanged for another one of the same extent.
-/
import SegFit.Proofs.Words

namespace SegFit

/-- The blocks `cs` fill `[start, stop)`, in order. -/
def Tiles : Nat → List TaggedBlock → Nat → Prop
  | start, [], stop => start = stop
  | start, b :: rest, stop =>
    b.1 = start ∧ minBlock ≤ b.2.size ∧ Tiles (start + b.2.size) rest stop

theorem tiles_append {start stop : Nat} {xs ys : List TaggedBlock} :
    Tiles start (xs ++ ys) stop ↔ ∃ mid, Tiles start xs mid ∧ Tiles mid ys stop := by
  induction xs generalizing start with
  | nil => simp [Tiles]
  | cons b xs ih => simp [Tiles, ih, and_assoc]

theorem tiles_singleton {start stop : Nat} {b : TaggedBlock} :
    Tiles start [b] stop ↔ b.1 = start ∧ minBlock ≤ b.2.size ∧ start + b.2.size = stop :=
  Iff.rfl

/-- A tiling in three stretches. -/
theorem tiles_stretches {start stop : Nat} {pre mid post : List TaggedBlock} :
    Tiles start (pre ++ mid ++ post) stop ↔
      ∃ first last, Tiles start pre first ∧ Tiles first mid last ∧ Tiles last post stop := by
  rw [tiles_append]
  constructor
  · rintro ⟨last, hfront, hpost⟩
    obtain ⟨first, hpre, hmid⟩ := tiles_append.mp hfront
    exact ⟨first, last, hpre, hmid, hpost⟩
  · rintro ⟨first, last, hpre, hmid, hpost⟩
    exact ⟨last, tiles_append.mpr ⟨first, hpre, hmid⟩, hpost⟩

/-- A tiling around one of its blocks. -/
theorem tiles_around {start stop : Nat} {pre post : List TaggedBlock} {b : TaggedBlock} :
    Tiles start (pre ++ b :: post) stop ↔
      Tiles start pre b.1 ∧ minBlock ≤ b.2.size ∧ Tiles (b.1 + b.2.size) post stop := by
  rw [tiles_append]
  constructor
  · rintro ⟨mid, h1, rfl, h2, h3⟩
    exact ⟨h1, h2, h3⟩
  · rintro ⟨h1, h2, h3⟩
    exact ⟨b.1, h1, rfl, h2, h3⟩

namespace Tiles

variable {start stop : Nat} {cs : List TaggedBlock}

theorem le (h : Tiles start cs stop) : start ≤ stop := by
  induction cs generalizing start with
  | nil => exact Nat.le_of_eq h
  | cons b cs ih =>
    have := ih h.2.2
    omega

theorem bounds (h : Tiles start cs stop) {b : TaggedBlock} (hb : b ∈ cs) :
    start ≤ b.1 ∧ b.1 + b.2.size ≤ stop ∧ minBlock ≤ b.2.size := by
  induction cs generalizing start with
  | nil => exact absurd hb List.not_mem_nil
  | cons c cs ih =>
    obtain ⟨h1, h2, h3⟩ := h
    have hle := le h3
    rcases List.mem_cons.mp hb with rfl | hb
    · exact ⟨by omega, by omega, h2⟩
    · obtain ⟨h4, h5⟩ := ih h3 hb
      exact ⟨by omega, h5⟩

/-- Blocks leave no gap. -/
theorem exists_mem (h : Tiles start cs stop) {x : Nat} (hx : start ≤ x) (hx' : x < stop) :
    ∃ b ∈ cs, b.1 ≤ x ∧ x < b.1 + b.2.size := by
  induction cs generalizing start with
  | nil =>
    obtain rfl : start = stop := h
    omega
  | cons b cs ih =>
    obtain ⟨rfl, -, hrest⟩ := h
    by_cases hin : x < b.1 + b.2.size
    · exact ⟨b, List.mem_cons_self, hx, hin⟩
    · obtain ⟨c, hc, hle⟩ := ih hrest (Nat.le_of_not_lt hin)
      exact ⟨c, List.mem_cons_of_mem b hc, hle⟩

/-- Blocks lie one after the other. -/
theorem pairwise (h : Tiles start cs stop) :
    cs.Pairwise fun b c => b.1 + b.2.size ≤ c.1 := by
  induction cs generalizing start with
  | nil => exact .nil
  | cons b cs ih =>
    obtain ⟨h1, -, h3⟩ := h
    refine .cons (fun c hc => ?_) (ih h3)
    have := (bounds h3 hc).1
    omega

/-- Two blocks of a tiling are the same or do not overlap. -/
theorem eq_or_apart (h : Tiles start cs stop) {b c : TaggedBlock} (hb : b ∈ cs) (hc : c ∈ cs) :
    b = c ∨ b.1 + b.2.size ≤ c.1 ∨ c.1 + c.2.size ≤ b.1 := by
  have h' : cs.Pairwise fun b c => b = c ∨ b.1 + b.2.size ≤ c.1 ∨ c.1 + c.2.size ≤ b.1 :=
    h.pairwise.imp fun h => .inr (.inl h)
  exact List.Pairwise.forall_of_forall_of_flip (fun x _ => .inl rfl) h'
    (h'.imp fun h => h.imp Eq.symm Or.symm) hb hc

/-- The blocks before and after a stretch do not reach into it. -/
theorem outside {mid last : Nat} {pre post : List TaggedBlock} (hpre : Tiles start pre mid)
    (hle : mid ≤ last) (hpost : Tiles last post stop) {b : TaggedBlock} (hb : b ∈ pre ++ post) :
    (b.1 + b.2.size ≤ mid ∨ last ≤ b.1) ∧ start ≤ b.1 ∧ minBlock ≤ b.2.size := by
  rcases List.mem_append.mp hb with hb | hb
  · obtain ⟨h1, h2, h3⟩ := bounds hpre hb
    exact ⟨.inl h2, h1, h3⟩
  · obtain ⟨h1, -, h3⟩ := bounds hpost hb
    have := le hpre
    exact ⟨.inr h1, by omega, h3⟩

/-- The offset of a block determines it. -/
theorem eq_of_offset (h : Tiles start cs stop) {b c : TaggedBlock} (hb : b ∈ cs) (hc : c ∈ cs)
    (ho : b.1 = c.1) : b = c := by
  have h1 := (h.bounds hb).2.2
  have h2 := (h.bounds hc).2.2
  simp only [minBlock] at h1 h2
  rcases h.eq_or_apart hb hc with h | h | h
  · exact h
  · omega
  · omega

/-- With sizes that tags can describe, alignment goes on from the start to every block and to
the end. -/
theorem aligned (h : Tiles start cs stop) (hs : start % alignment = 0)
    (he : ∀ b ∈ cs, b.2.Encodable) :
    (∀ b ∈ cs, b.1 % alignment = 0) ∧ stop % alignment = 0 := by
  induction cs generalizing start with
  | nil => exact ⟨fun b hb => absurd hb List.not_mem_nil, h ▸ hs⟩
  | cons b cs ih =>
    obtain ⟨h1, -, h3⟩ := h
    have hb : b.2.size % alignment = 0 := (he b List.mem_cons_self).1
    simp only [alignment] at hs hb
    obtain ⟨h4, h5⟩ := ih h3 (by simp only [alignment]; omega)
      fun c hc => he c (List.mem_cons_of_mem b hc)
    refine ⟨fun c hc => ?_, h5⟩
    rcases List.mem_cons.mp hc with rfl | hc
    · rw [h1]
      exact hs
    · exact h4 c hc

end Tiles

namespace Heap

variable {h : Heap} {cs : List TaggedBlock}

/-- A chain is a tiling up to the zero word at the epilog header, with its tags in place. -/
theorem chain_iff {start : Nat} :
    h.Chain start cs ↔ Tiles start cs (h.epilog + wordSize) ∧ (∀ b ∈ cs, h.mem.Marked b) ∧
      h.mem.word h.epilog = 0 := by
  constructor
  · intro hc
    induction hc with
    | nil zero => exact ⟨rfl, fun b hb => absurd hb List.not_mem_nil, zero⟩
    | cons header large footer _ ih =>
      obtain ⟨h1, h2, h3⟩ := ih
      exact ⟨⟨rfl, large, h1⟩, List.forall_mem_cons.mpr ⟨⟨header, footer⟩, h2⟩, h3⟩
  · intro ⟨ht, hm, hz⟩
    induction cs generalizing start with
    | nil =>
      obtain rfl : start = h.epilog + wordSize := ht
      exact .nil hz
    | cons b cs ih =>
      obtain ⟨block, tag⟩ := b
      obtain ⟨rfl, h2, h3⟩ := ht
      obtain ⟨h4, h5⟩ := List.forall_mem_cons.mp hm
      exact .cons h4.header h2 h4.footer (ih h3 h5)

theorem Chain.tiles {start : Nat} (hc : h.Chain start cs) :
    Tiles start cs (h.epilog + wordSize) :=
  (chain_iff.mp hc).1

theorem Chain.marked {start : Nat} (hc : h.Chain start cs) {b : TaggedBlock} (hb : b ∈ cs) :
    h.mem.Marked b :=
  (chain_iff.mp hc).2.1 b hb

theorem Chain.zero {start : Nat} (hc : h.Chain start cs) : h.mem.word h.epilog = 0 :=
  (chain_iff.mp hc).2.2

theorem Chain.aligned (hc : h.Chain firstBlock cs) :
    (∀ b ∈ cs, b.1 % alignment = 0) ∧ (h.epilog + wordSize) % alignment = 0 :=
  hc.tiles.aligned (by decide) fun _ hb => (hc.marked hb).encodable

end Heap

end SegFit
