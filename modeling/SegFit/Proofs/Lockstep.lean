/-
  Two allocators in lockstep.  If a relation between heaps is kept by all that an allocator does
  to its heap, with the same answers on both sides (`Lockstep`), then two allocators with related
  heaps, equal counters and equal journals answer each operation alike and stay so
  (`Twins.perform`); their settings do not matter.
-/
import SegFit.Proofs.Accepted
import SegFit.Proofs.Accounts
import SegFit.Proofs.Answers

namespace SegFit

open Heap

/-- Both computations answer the same, and the states they end in are related. -/
def Agree {ε α σ : Type} (R : σ → σ → Prop) (x y : Except ε (α × σ)) : Prop :=
  ∃ answer s t, x = .ok (answer, s) ∧ y = .ok (answer, t) ∧ R s t

namespace Heap

/-- `R` relates sound heaps with the same blocks, and what an allocator does to them keeps it and
answers the same on both sides. -/
structure Lockstep (R : Heap → Heap → Prop) : Prop where
  sound : ∀ {h k}, R h k → ∃ cs ls, h.Sound cs ls ∧ k.Sound cs ls
  acquire : ∀ {h k size}, R h k → BlockSize size → ∀ limit,
    Agree R (h.acquire limit size) (k.acquire limit size)
  release : ∀ {h k cs ls} {x : TaggedBlock}, R h k → h.Sound cs ls → x ∈ cs →
    x.2.status = .allocated → Agree R (h.release x.1) (k.release x.1)
  resize : ∀ {h k cs ls size} {x : TaggedBlock}, R h k → h.Sound cs ls → x ∈ cs →
    x.2.status = .allocated → BlockSize size → ∀ limit,
    Agree R (h.resize limit x.1 size) (k.resize limit x.1 size)
  copy : ∀ {h k cs ls n} {x y : TaggedBlock}, R h k → h.Sound cs ls → x ∈ cs → y ∈ cs →
    y.2.status = .allocated → n + overhead ≤ x.2.size → n + overhead ≤ y.2.size →
    ∃ m m', h.mem.copy x.1 y.1 n = .ok m ∧ k.mem.copy x.1 y.1 n = .ok m' ∧
      R ⟨m, h.epilog⟩ ⟨m', k.epilog⟩
  fill : ∀ {h k cs ls} {x : TaggedBlock} (f : Nat → UInt8), R h k → h.Sound cs ls → x ∈ cs →
    x.2.status = .allocated →
    ∃ m m', h.mem.fill x.1 (x.2.size - overhead) f = .ok m ∧
      k.mem.fill x.1 (x.2.size - overhead) f = .ok m' ∧ R ⟨m, h.epilog⟩ ⟨m', k.epilog⟩

variable {h k : Heap} {cs : List TaggedBlock} {ls ls' : Nat → List Nat}

/-- Heaps with the same blocks end alike. -/
theorem Sound.extent_eq (hs : h.Sound cs ls) (hs' : k.Sound cs ls') :
    h.epilog = k.epilog ∧ h.size = k.size := by
  have htiles := hs.chain.tiles.bytesOf_eq
  have htiles' := hs'.chain.tiles.bytesOf_eq
  have hspan := hs.span
  have hspan' := hs'.span
  omega

/-- The blocks of one heap are those of the other. -/
theorem Lockstep.right {R : Heap → Heap → Prop} (hR : Lockstep R) (hr : R h k)
    (hs : h.Sound cs ls) : ∃ ls', k.Sound cs ls' := by
  obtain ⟨_, ls', hs₁, hs₂⟩ := hR.sound hr
  obtain rfl := hs₁.chain.unique hs.chain
  exact ⟨ls', hs₂⟩

end Heap

namespace Allocator

/-- Allocators that differ in their settings at most, and in their heaps as far as `R` lets them. -/
structure Twins (R : Heap → Heap → Prop) (a b : Allocator) : Prop where
  heap : R a.heap b.heap
  limit : a.limit = b.limit
  journal : a.journal = b.journal
  liveBlocks : a.liveBlocks = b.liveBlocks
  liveBytes : a.liveBytes = b.liveBytes

variable {R : Heap → Heap → Prop} {a b : Allocator} {cs : List TaggedBlock} {ls : Nat → List Nat}
  {x : TaggedBlock} {n size : Nat}

/-! ## Counters and journals -/

theorem Twins.with_heap (ht : Twins R a b) {h k : Heap} (hr : R h k) :
    Twins R { a with heap := h } { b with heap := k } :=
  ⟨hr, ht.limit, ht.journal, ht.liveBlocks, ht.liveBytes⟩

theorem Twins.countBlock (ht : Twins R a b) (n : Nat) :
    Twins R (a.countBlock n) (b.countBlock n) :=
  ⟨ht.heap, ht.limit, ht.journal, congrArg (· + 1) ht.liveBlocks, congrArg (· + n) ht.liveBytes⟩

theorem Twins.discountBlock (ht : Twins R a b) (n : Nat) :
    Twins R (a.discountBlock n) (b.discountBlock n) :=
  ⟨ht.heap, ht.limit, ht.journal, congrArg (· - 1) ht.liveBlocks, congrArg (· - n) ht.liveBytes⟩

theorem Twins.recountBlock (ht : Twins R a b) (old new : Nat) :
    Twins R (a.recountBlock old new) (b.recountBlock old new) :=
  ⟨ht.heap, ht.limit, ht.journal, ht.liveBlocks, congrArg (· + new - old) ht.liveBytes⟩

section

variable (hR : Lockstep R) (ht : Twins R a b)
include hR ht

theorem Twins.size_eq : a.heap.size = b.heap.size := by
  obtain ⟨cs, ls, hs, hs'⟩ := hR.sound ht.heap
  exact (hs.extent_eq hs').2

/-- Both note the same. -/
theorem Twins.note (e : Entry) : Twins R (a.note e) (b.note e) := by
  refine ⟨ht.heap, ht.limit, ?_, ht.liveBlocks, ht.liveBytes⟩
  show a.journal.record e a.snapshot = b.journal.record e b.snapshot
  rw [snapshot, snapshot, ht.journal, ht.size_eq hR, ht.liveBlocks, ht.liveBytes]

/-! ## Steps -/

theorem Twins.acquire (hsz : BlockSize size) (symbol : String) :
    Agree (Twins R) (a.acquire symbol size) (b.acquire symbol size) := by
  obtain ⟨result, h, k, hh, hk, hr⟩ := hR.acquire ht.heap hsz a.limit
  have ht' := ht.with_heap hr
  have hsize : h.size = k.size := ht'.size_eq hR
  rw [ht.limit] at hk
  unfold Allocator.acquire
  rw [hh, hk, ok_bind, ok_bind]
  cases result with
  | error cause => exact ⟨_, _, _, rfl, rfl, ht'.note hR _⟩
  | ok grant =>
    cases grant with
    | reused block found placed =>
      exact ⟨_, _, _, rfl, rfl, (ht'.countBlock placed).note hR _⟩
    | grown block growth isLast =>
      refine ⟨_, _, _, rfl, rfl, Twins.note hR (Twins.countBlock ?_ _) _⟩
      show Twins R (Allocator.note _ (.grew symbol growth h.size))
        (Allocator.note _ (.grew symbol growth k.size))
      rw [hsize]
      exact ht'.note hR _

theorem Twins.serve (symbol : String) (n : Nat) :
    Agree (Twins R) (a.serve symbol n) (b.serve symbol n) := by
  unfold Allocator.serve sizeFor
  by_cases hn : n = 0
  · rw [if_pos hn, if_pos hn]
    exact ⟨_, _, _, rfl, rfl, ht.note hR _⟩
  · rw [if_neg hn, if_neg hn]
    cases hsize : blockSizeFor n with
    | none => exact ⟨_, _, _, rfl, rfl, ht.note hR _⟩
    | some size =>
      obtain ⟨result, a₁, b₁, ha, hb, ht₁⟩ := ht.acquire hR (blockSizeFor_spec hsize).1 symbol
      refine ⟨result.map some, a₁, b₁, ?_, ?_, ht₁⟩
      · show (a.acquire symbol size >>= fun r => _) = _
        rw [ha]
        rfl
      · show (b.acquire symbol size >>= fun r => _) = _
        rw [hb]
        rfl

/-- A request for zero bytes clears the same payload on both sides. -/
theorem Twins.serveZeroed (hs : a.heap.Sound cs ls) (n : Nat) :
    Agree (Twins R) (a.serveZeroed n) (b.serveZeroed n) := by
  obtain ⟨result, a₁, b₁, ha, hb, ht₁⟩ := ht.serve hR "calloc" n
  unfold Allocator.serveZeroed
  rw [ha, hb, ok_bind, ok_bind]
  cases result with
  | error e => exact ⟨_, _, _, rfl, rfl, ht₁⟩
  | ok block =>
    cases block with
    | none => exact ⟨_, _, _, rfl, rfl, ht₁⟩
    | some ptr =>
      obtain ⟨c, cs₁, ls₁, rfl, h₁, -⟩ := serve_block hs ha
      have hc := h₁.swaps.mem_of_new
      obtain ⟨ls₂, hs₂⟩ := hR.right ht₁.heap h₁.sound
      obtain ⟨m, m', hm, hm', hr⟩ := hR.fill (fun _ => 0) ht₁.heap h₁.sound hc
        (h₁.swaps.allocated c rfl)
      refine ⟨.ok (some c.1), _, _, ?_, ?_, ht₁.with_heap hr⟩
      · show (a₁.clear c.1 >>= fun a => _) = _
        rw [clear, h₁.sound.consistent.blockSize hc, ok_bind,
          h₁.sound.chain.difference_overhead hc, ok_bind, hm]
        rfl
      · show (b₁.clear c.1 >>= fun b => _) = _
        rw [clear, hs₂.consistent.blockSize hc, ok_bind, hs₂.chain.difference_overhead hc,
          ok_bind, hm']
        rfl

theorem Twins.change_none (n : Nat) : Agree (Twins R) (a.change none n) (b.change none n) := by
  obtain ⟨result, a₁, b₁, ha, hb, ht₁⟩ := ht.serve hR "realloc" n
  unfold Allocator.change
  simp only [ha, hb, ok_bind]
  cases result with
  | error e => exact ⟨_, _, _, rfl, rfl, ht₁⟩
  | ok block => exact ⟨_, _, _, rfl, rfl, ht₁.note hR _⟩

variable (hs : a.heap.Sound cs ls) (hx : x ∈ cs) (hax : x.2.status = .allocated)
include hs hx hax

/-- The pointer of an allocated block passes on both sides, validated or not. -/
theorem Twins.free (symbol : String) :
    Agree (Twins R) (a.free symbol x.1) (b.free symbol x.1) := by
  obtain ⟨ls', hs'⟩ := hR.right ht.heap hs
  obtain ⟨done, h, k, hh, hk, hr⟩ := hR.release ht.heap hs hx hax
  unfold Allocator.free
  rw [accept_allocated hs hx hax, accept_allocated hs' hx hax, ok_bind, ok_bind]
  simp only [hh, hk, ok_bind]
  exact ⟨_, _, _, rfl, rfl, ((ht.with_heap hr).discountBlock done.freed).note hR _⟩

/-- A move copies on both sides, between the same blocks. -/
theorem Twins.move (hsize : blockSizeFor n = some size) (hlt : x.2.size < size) :
    Agree (Twins R) (a.move x.1 n size x.2.size) (b.move x.1 n size x.2.size) := by
  obtain ⟨result, a₁, b₁, ha, hb, ht₁⟩ := ht.serve hR "realloc" n
  unfold Allocator.move
  rw [ha, hb, ok_bind, ok_bind]
  cases result with
  | error e => exact ⟨_, _, _, rfl, rfl, ht₁⟩
  | ok block =>
    cases block with
    | none => exact ⟨_, _, _, rfl, rfl, ht₁⟩
    | some target =>
      obtain ⟨c, cs₁, ls₁, rfl, h₁, hsup⟩ := serve_block hs ha
      have hle := hsup.le hsize
      have hx₁ : x ∈ cs₁ := h₁.swaps.mem_of_mem hx hax (by simp)
      have hlarge := (hs.chain.bounds hx).2.2
      have hnx : x.2.size - overhead + overhead ≤ x.2.size := by
        simp only [minBlock, overhead] at *
        omega
      have hnc : x.2.size - overhead + overhead ≤ c.2.size := by omega
      obtain ⟨m, m', hm, hm', hr⟩ := hR.copy ht₁.heap h₁.sound hx₁ h₁.swaps.mem_of_new
        (h₁.swaps.allocated c rfl) hnx hnc
      obtain ⟨m₂, hm₂, -, -, h₂⟩ := h₁.copy_payload hx₁ hnx hnc
      obtain rfl := Except.ok.inj (hm.symm.trans hm₂)
      obtain ⟨done, a₃, b₃, ha₃, hb₃, ht₃⟩ :=
        (ht₁.with_heap hr).free hR h₂.sound hx₁ hax "realloc"
      have hdiff : difference (min size x.2.size) overhead = .ok (x.2.size - overhead) := by
        rw [Nat.min_eq_right (Nat.le_of_lt hlt), hs.chain.difference_overhead hx]
      simp only [hdiff, hm, hm', ha₃, hb₃, ok_bind]
      cases done with
      | error e => exact ⟨_, _, _, rfl, rfl, ht₃⟩
      | ok => exact ⟨_, _, _, rfl, rfl, ht₃.note hR _⟩

theorem Twins.fit (n : Nat) : Agree (Twins R) (a.fit x.1 n) (b.fit x.1 n) := by
  obtain ⟨ls', hs'⟩ := hR.right ht.heap hs
  unfold Allocator.fit
  rw [accept_allocated hs hx hax, accept_allocated hs' hx hax, ok_bind, ok_bind]
  simp only [sizeFor]
  cases hsize : blockSizeFor n with
  | none => exact ⟨_, _, _, rfl, rfl, ht.note hR _⟩
  | some size =>
    obtain ⟨hsz, -⟩ := blockSizeFor_spec hsize
    obtain ⟨result, h, k, hh, hk, hr⟩ := hR.resize ht.heap hs hx hax hsz a.limit
    have ht' := ht.with_heap hr
    rw [ht.limit] at hk
    simp only [hh, hk, ok_bind]
    cases result with
    | error cause => exact ⟨_, _, _, rfl, rfl, ht'.note hR _⟩
    | ok done =>
      cases done with
      | inPlace old new => exact ⟨_, _, _, rfl, rfl, (ht'.recountBlock old new).note hR _⟩
      | grown old absorbed growth =>
        refine ⟨_, _, _, rfl, rfl, Twins.note hR (Twins.recountBlock ?_ _ _) _⟩
        have hgrown : h.size = k.size := ht'.size_eq hR
        simp only [hgrown]
        exact ht'.note hR _
      | mustMove old =>
        -- The heap is unchanged, and the block too small.
        rcases hs.resize hx hax hsz a.limit with ⟨_, hrun⟩ | ⟨hrun, hlt⟩ |
          ⟨_, _, _, _, _, hrun, -, -, -, hdone⟩
        · cases hh.symm.trans hrun
        · cases hh.symm.trans hrun
          exact ht'.move hR hs hx hax hsize hlt
        · cases hh.symm.trans hrun
          rcases hdone with hdone | ⟨_, _, hdone, -⟩ <;> cases hdone

theorem Twins.change_some (n : Nat) :
    Agree (Twins R) (a.change (some x.1) n) (b.change (some x.1) n) := by
  by_cases hn : n = 0
  · obtain ⟨done, a₁, b₁, ha, hb, ht₁⟩ := ht.free hR hs hx hax "realloc"
    simp only [Allocator.change, if_pos hn, ha, hb, ok_bind]
    cases done with
    | error e => exact ⟨_, _, _, rfl, rfl, ht₁⟩
    | ok => exact ⟨_, _, _, rfl, rfl, ht₁.note hR _⟩
  · rw [Allocator.change_some hn, Allocator.change_some hn]
    exact ht.fit hR hs hx hax n

end

/-! ## Operations -/

/-- Verification passes on both sides, or does not take place. -/
theorem Agree.settle {α : Type} (hR : Lockstep R) {x y : Except Fault (Reply α)}
    (h : Agree (Twins R) x y) : Agree (Twins R) (settle x) (settle y) := by
  obtain ⟨result, a, b, hx, hy, ht⟩ := h
  obtain ⟨cs, ls, hs, hs'⟩ := hR.sound ht.heap
  exact ⟨result, a, b, settle_ok hx hs, settle_ok hy hs', ht⟩

/-- Twins answer an operation alike, and stay twins. -/
theorem Twins.perform (hR : Lockstep R) (ht : Twins R a b) {live : List Nat}
    (hlive : a.Tracks live cs ls) {r : Request} (hop : r.Operates)
    (hlegal : ∀ ptr, r.pointer = some ptr → ptr ∈ live) :
    Agree (Twins R) (a.perform r) (b.perform r) := by
  have hs := hlive.sound
  have hblock : ∀ {ptr}, r.pointer = some ptr → ∃ x ∈ cs, x.2.status = .allocated ∧ x.1 = ptr :=
    fun hp => (hlive.live _).mp (hlegal _ hp)
  cases r with
  | write | read => exact hop.elim
  | allocate n => exact Agree.settle hR (ht.serve hR "malloc" n)
  | allocateZeroed count size =>
    rw [Allocator.perform, Allocator.perform, allocateZeroed, allocateZeroed]
    split
    · exact Agree.settle hR (ht.serveZeroed hR hs _)
    · exact ⟨_, _, _, rfl, rfl, ht.note hR _⟩
  | release ptr =>
    obtain ⟨x, hx, hax, rfl⟩ := hblock rfl
    obtain ⟨done, a', b', ha, hb, ht'⟩ := Agree.settle hR (ht.free hR hs hx hax "free")
    refine ⟨done.map fun _ => none, a', b', ?_, ?_, ht'⟩
    · show (settle (a.free "free" x.1) >>= fun r => _) = _
      rw [ha]
      rfl
    · show (settle (b.free "free" x.1) >>= fun r => _) = _
      rw [hb]
      rfl
  | resize ptr n =>
    cases ptr with
    | none => exact Agree.settle hR (ht.change_none hR n)
    | some ptr =>
      obtain ⟨x, hx, hax, rfl⟩ := hblock rfl
      exact Agree.settle hR (ht.change_some hR hs hx hax n)

end Allocator

end SegFit
