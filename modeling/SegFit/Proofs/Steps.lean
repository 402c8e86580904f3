/-
  The steps of an allocator on a sound heap.  Serving a request and fitting a block are
  refused or granted; freeing an allocated block is always granted, so that the last step of
  a move cannot fail (`free_spec`, `move_served`).
-/
import SegFit.Proofs.Outcome

namespace SegFit

namespace Allocator

open Heap

variable {a : Allocator} {cs : List TaggedBlock} {ls : Nat → List Nat} {b : TaggedBlock}

/-- The bytes of `b` are found in `c`, as far as both reach. -/
def Carries (h h' : Heap) (b c : TaggedBlock) : Prop :=
  ∀ k, k + overhead < b.2.size → k + overhead < c.2.size →
    h'.mem.byte (c.1 + k) = h.mem.byte (b.1 + k)

/-- What a request for `n` bytes gets: no block if `n = 0`, and a large enough one otherwise. -/
structure Supplies (n : Nat) (new : Option TaggedBlock) : Prop where
  isNone : new = none ↔ n = 0
  large : ∀ b ∈ new, ∃ size, blockSizeFor n = some size ∧ size ≤ b.2.size

theorem Supplies.exists_eq {n : Nat} {new : Option TaggedBlock} (h : Supplies n new) (hn : n ≠ 0) :
    ∃ c, new = some c :=
  Option.ne_none_iff_exists'.mp (mt h.isNone.mp hn)

theorem Supplies.le {n size : Nat} {c : TaggedBlock} (h : Supplies n (some c))
    (hsize : blockSizeFor n = some size) : size ≤ c.2.size := by
  obtain ⟨size', hsize', hle⟩ := h.large c rfl
  obtain rfl : size = size' := Option.some.inj (hsize.symm.trans hsize')
  exact hle

/-- What changing the size of `b` to `n` bytes gets: a block that carries the bytes of `b`, if
any. -/
structure Refits (a : Allocator) (b : TaggedBlock) (n : Nat) (new : Option TaggedBlock)
    (a' : Allocator) : Prop where
  supplies : Supplies n new
  carries : ∀ c ∈ new, Carries a.heap a'.heap b c

/-! ## Validation -/

/-- The pointer of an allocated block is valid at any level of safety. -/
theorem validate_allocated (hs : a.heap.Sound cs ls) (hb : b ∈ cs)
    (ha : b.2.status = .allocated) : a.validate b.1 = .ok (.ok ()) := by
  unfold validate
  split
  · rw [hs.consistent.liveSize hb ha]
    rfl
  · rfl

theorem accept_allocated (hs : a.heap.Sound cs ls) (hb : b ∈ cs) (ha : b.2.status = .allocated)
    (symbol : String) : a.accept symbol b.1 = .ok (.ok (), a) := by
  unfold accept
  rw [validate_allocated hs hb ha]
  rfl

/-- A pointer that fails validation is refused. -/
theorem accept_rejected (hv : a.settings.safety.validates = true) {ptr : Nat} {e : Refusal}
    (he : a.heap.liveSize ptr = .ok (.error e)) (symbol : String) :
    a.accept symbol ptr = .ok (.error e, a.note (.denied symbol ptr e)) := by
  unfold accept
  rw [validate, if_pos hv, he]
  rfl

/-! ## Serving -/

/-- Taking a block of a size that blocks can have is refused or granted. -/
theorem acquire_spec (hs : a.heap.Sound cs ls) {size : Nat} (hsz : BlockSize size)
    (symbol : String) :
    (∃ e a', a.acquire symbol size = .ok (.error e, a') ∧ a.Refused a') ∨
      ∃ c a' cs' ls', a.acquire symbol size = .ok (.ok c.1, a') ∧
        Outcome a cs none (some c) a' cs' ls' ∧ size ≤ c.2.size := by
  rcases hs.acquire hsz a.limit with ⟨cause, hrun⟩ | ⟨grant, h', cs', ls', hrun, hbec, hsw, hle⟩
  · refine .inl ⟨.outOfMemory cause, _, ?_, a.refused_note (e := .outOfMemory symbol cause) rfl⟩
    unfold acquire
    rw [hrun]
    rfl
  · have hout := Outcome.of_becomes hs hbec hsw
    cases grant with
    | reused block found placed =>
      refine .inr ⟨_, _, cs', ls', ?_, (hout.countBlock placed).note (e := .allocated symbol size
        (.reused block found placed)) (Entry.plain_trace rfl), hle⟩
      unfold acquire
      rw [hrun]
      rfl
    | grown block growth isLast =>
      refine .inr ⟨_, _, cs', ls', ?_, ((hout.note (e := .grew symbol growth h'.size)
        (Entry.plain_debug rfl)).countBlock size).note (e := .allocated symbol size
        (.grown block growth isLast)) (Entry.plain_trace rfl), hle⟩
      unfold acquire
      rw [hrun]
      rfl

/-- Serving a request is refused or granted. -/
theorem serve_spec (hs : a.heap.Sound cs ls) (symbol : String) (n : Nat) :
    Answered a cs none (a.serve symbol n) fun new _ => Supplies n new := by
  unfold serve
  by_cases hn : n = 0
  · refine .inr ⟨none, _, cs, ls, if_pos hn, (Outcome.refl hs).note (e := .zeroSize symbol)
      (Entry.plain_trace rfl), by simp [hn], by simp⟩
  · rw [if_neg hn, sizeFor]
    cases hsize : blockSizeFor n with
    | none => exact .inl ⟨_, _, rfl, a.refused_note (e := .requestTooLarge symbol n) rfl⟩
    | some size =>
      obtain ⟨hsz, -⟩ := blockSizeFor_spec hsize
      rcases acquire_spec hs hsz symbol with ⟨e, a', hrun, hr⟩ | ⟨c, a', cs', ls', hrun, hout, hle⟩
      · refine .inl ⟨e, a', ?_, hr⟩
        show (a.acquire symbol size >>= fun r => _) = _
        rw [hrun]
        rfl
      · refine .inr ⟨some c, a', cs', ls', ?_, hout, by simp [hn], fun d hd => ?_⟩
        · show (a.acquire symbol size >>= fun r => _) = _
          rw [hrun]
          rfl
        · obtain rfl := Option.some.inj hd
          exact ⟨size, hsize, hle⟩

/-! ## Freeing -/

/-- Freeing an allocated block is granted. -/
theorem free_spec (hs : a.heap.Sound cs ls) (hb : b ∈ cs) (ha : b.2.status = .allocated)
    (symbol : String) :
    ∃ a' cs' ls', a.free symbol b.1 = .ok (.ok (), a') ∧
      Outcome a cs (some b.1) none a' cs' ls' := by
  obtain ⟨done, h', cs', ls', hrun, -, hbec, hsw, -⟩ := hs.release_allocated hb ha
  refine ⟨_, cs', ls', ?_, ((Outcome.of_becomes hs hbec hsw).discountBlock done.freed).note
    (e := .freed symbol b.1 done) (Entry.plain_trace rfl)⟩
  unfold free
  rw [accept_allocated hs hb ha, ok_bind]
  show (a.heap.release b.1 >>= fun r => _) = _
  rw [hrun]
  rfl

/-! ## Fitting -/

/-- Once a larger block is served, a move is granted; the new block holds what the old one held. -/
theorem move_served (hs : a.heap.Sound cs ls) (hb : b ∈ cs) (ha : b.2.status = .allocated)
    {n size : Nat} (hlt : b.2.size < size) {c : TaggedBlock} {a₁ : Allocator}
    {cs₁ : List TaggedBlock} {ls₁ : Nat → List Nat}
    (hrun : a.serve "realloc" n = .ok (.ok (some c.1), a₁))
    (h₁ : Outcome a cs none (some c) a₁ cs₁ ls₁) (hle : size ≤ c.2.size) :
    ∃ a' cs' ls', a.move b.1 n size b.2.size = .ok (.ok (some c.1), a') ∧
      Outcome a cs (some b.1) (some c) a' cs' ls' ∧ Carries a.heap a'.heap b c := by
  have hac := h₁.swaps.allocated c rfl
  have hc := h₁.swaps.mem_of_new
  have hb₁ : b ∈ cs₁ := h₁.swaps.mem_of_mem hb ha (by simp)
  have hne : c.1 ≠ b.1 := Ne.symm (h₁.swaps.fresh c rfl b hb ha (by simp))
  have hlarge := (hs.chain.bounds hb).2.2
  have hdiff : difference (min size b.2.size) overhead = .ok (b.2.size - overhead) := by
    rw [Nat.min_eq_right (Nat.le_of_lt hlt), hs.chain.difference_overhead hb]
  obtain ⟨m, hm, -, hmb, h₂⟩ := h₁.copy_payload hb₁ (n := b.2.size - overhead)
    (by simp only [minBlock, overhead] at *; omega) (by simp only [minBlock, overhead] at *; omega)
  obtain ⟨a₃, cs₃, ls₃, hfree, h₃⟩ := free_spec h₂.sound hb₁ ha "realloc"
  refine ⟨_, cs₃, ls₃, ?_, (h₂.trans h₃ hne).note (e := .moved b.1 c.1 size b.2.size
    (b.2.size - overhead)) (Entry.plain_trace rfl), fun k hk hk' => ?_⟩
  · unfold move
    rw [hrun, ok_bind]
    show (difference (min size b.2.size) overhead >>= fun copied => _) = _
    rw [hdiff, ok_bind, hm, ok_bind]
    show (free _ "realloc" b.1 >>= fun r => _) = _
    rw [hfree]
    rfl
  · -- The copy, seen after the release, of bytes that serving had kept.
    have h4 : a₃.heap.mem.byte (c.1 + k) = m.byte (c.1 + k) :=
      h₃.kept c hc hac (by simpa using Ne.symm hne) _ ⟨by omega, by omega⟩
    have h5 : m.byte (c.1 + k) = a₁.heap.mem.byte (b.1 + k) := hmb k (by omega)
    have h6 : a₁.heap.mem.byte (b.1 + k) = a.heap.mem.byte (b.1 + k) :=
      h₁.kept b hb ha (by simp) _ ⟨by omega, by omega⟩
    exact h4.trans (h5.trans h6)

/-- Moving a block to a larger one is refused or granted, as is the request for the latter. -/
theorem move_spec (hs : a.heap.Sound cs ls) (hb : b ∈ cs) (ha : b.2.status = .allocated)
    {n size : Nat} (hn : n ≠ 0) (hsize : blockSizeFor n = some size) (hlt : b.2.size < size) :
    Answered a cs (some b.1) (a.move b.1 n size b.2.size) (Refits a b n) := by
  rcases serve_spec hs "realloc" n with ⟨e, a', hrun, hr⟩ | ⟨new, a₁, cs₁, ls₁, hrun, h₁, hsup⟩
  · refine .inl ⟨e, a', ?_, hr⟩
    unfold move
    rw [hrun]
    rfl
  · obtain ⟨c, rfl⟩ := hsup.exists_eq hn
    have hle := hsup.le hsize
    obtain ⟨a', cs', ls', hmove, hout, hcarries⟩ := move_served hs hb ha hlt hrun h₁ hle
    refine .inr ⟨some c, a', cs', ls', hmove, hout, hsup, fun d hd => ?_⟩
    exact Option.some.inj hd ▸ hcarries

/-- Giving a block another size is refused or granted; the bytes that both sizes hold stay. -/
theorem fit_spec (hs : a.heap.Sound cs ls) (hb : b ∈ cs) (ha : b.2.status = .allocated) {n : Nat}
    (hn : n ≠ 0) : Answered a cs (some b.1) (a.fit b.1 n) (Refits a b n) := by
  unfold fit
  rw [accept_allocated hs hb ha, ok_bind]
  simp only [sizeFor]
  cases hsize : blockSizeFor n with
  | none => exact .inl ⟨_, _, rfl, a.refused_note (e := .requestTooLarge "realloc" n) rfl⟩
  | some size =>
    obtain ⟨hsz, -⟩ := blockSizeFor_spec hsize
    have hsup : ∀ c : TaggedBlock, size ≤ c.2.size → Supplies n (some c) := by
      intro c hle
      refine ⟨by simp [hn], fun d hd => ?_⟩
      obtain rfl := Option.some.inj hd
      exact ⟨size, hsize, hle⟩
    rcases hs.resize hb ha hsz a.limit with ⟨cause, hrun⟩ | ⟨hrun, hlt⟩ |
      ⟨done, h', cs', ls', new, hrun, hbec, hsw, hle, hdone⟩
    · refine .inl ⟨.outOfMemory cause, _, ?_,
        a.refused_note (e := .outOfMemory "realloc" cause) rfl⟩
      simp only [hrun, ok_bind]
      rfl
    · simp only [hrun, ok_bind]
      exact move_spec hs hb ha hn hsize hlt
    · have hout := Outcome.of_becomes hs hbec hsw
      have hmem := hsw.mem_of_new
      have hfits : ∀ a' : Allocator, a'.heap = h' →
          Refits a b n (some (b.1, ⟨new, .allocated⟩)) a' := by
        refine fun a' he => ⟨hsup _ hle, fun d hd k hk hk' => ?_⟩
        obtain rfl := Option.some.inj hd
        rw [he]
        exact hbec.payload hs.chain hb ha hmem rfl ⟨by omega, by omega⟩
          ⟨Nat.le_add_right .., by simp only at *; omega⟩
      rcases hdone with rfl | ⟨absorbed, growth, rfl, rfl⟩
      · refine .inr ⟨_, _, cs', ls', ?_, (hout.recountBlock b.2.size new).note
          (e := .resizedInPlace b.1 size b.2.size new) (Entry.plain_trace rfl), hfits _ rfl⟩
        simp only [hrun, ok_bind]
        rfl
      · refine .inr ⟨_, _, cs', ls', ?_, ((hout.note (e := .grew "realloc" growth h'.size)
          (Entry.plain_debug rfl)).recountBlock b.2.size new).note
          (e := .resizedByGrowth b.1 new b.2.size absorbed) (Entry.plain_trace rfl), hfits _ rfl⟩
        simp only [hrun, ok_bind]
        rfl

end Allocator

end SegFit
