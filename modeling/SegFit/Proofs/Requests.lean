/-
  The operations of an allocator on a sound heap.  Since every step leaves a sound heap, the
  verification after it passes (`settle_ok`), so that an operation ends as its step does; a
  pointer that fails validation is refused.
-/
import SegFit.Allocator.Run
import SegFit.Proofs.Checker
import SegFit.Proofs.Steps

namespace SegFit

open Heap

/-- A sound heap passes its check. -/
theorem Heap.Sound.check {h : Heap} {cs : List TaggedBlock} {ls : Nat → List Nat}
    (hs : h.Sound cs ls) : h.check = .ok (.ok ()) := by
  have hsmall := hs.small
  refine (check_iff (Nat.le_of_eq hs.span) ?_).mpr ⟨cs, ls, hs.shape⟩
  simp only [maxWord, offsetBound] at *
  omega

namespace Allocator

variable {a : Allocator} {cs : List TaggedBlock} {ls : Nat → List Nat} {b : TaggedBlock}

/-! ## Steps that begin with a decision -/

/-- A change of size without a block is a request for one. -/
theorem change_none_spec (hs : a.heap.Sound cs ls) (n : Nat) :
    Answered a cs none (a.change none n) fun new _ => Supplies n new := by
  unfold change
  rcases serve_spec hs "realloc" n with ⟨e, a', hrun, hr⟩ | ⟨new, a', cs', ls', hrun, hout, hsup⟩
  · refine .inl ⟨e, a', ?_, hr⟩
    rw [hrun]
    rfl
  · refine .inr ⟨new, _, cs', ls', ?_, hout.note (e := .resizedNothing (new.map Prod.fst) n)
      (Entry.plain_trace rfl), hsup⟩
    rw [hrun]
    rfl

/-- A change of size to zero bytes frees the block, and any other fits it. -/
theorem change_some_spec (hs : a.heap.Sound cs ls) (hb : b ∈ cs) (ha : b.2.status = .allocated)
    (n : Nat) : Answered a cs (some b.1) (a.change (some b.1) n) (Refits a b n) := by
  unfold change
  by_cases hn : n = 0
  · obtain ⟨a', cs', ls', hrun, hout⟩ := free_spec hs hb ha "realloc"
    refine .inr ⟨none, _, cs', ls', ?_, hout.note (e := .resizedToNothing b.1)
      (Entry.plain_trace rfl), ⟨by simp [hn], by simp⟩, by simp⟩
    simp only [if_pos hn, hrun]
    rfl
  · simp only [if_neg hn]
    exact fit_spec hs hb ha hn

/-- Clearing the block that was added sets its payload to zeros and nothing else. -/
theorem clear_spec {gone : Option Nat} {c : TaggedBlock} {a' : Allocator} {cs' : List TaggedBlock}
    {ls' : Nat → List Nat} (h : Outcome a cs gone (some c) a' cs' ls') :
    ∃ m, a'.clear c.1 = .ok { a' with heap := ⟨m, a'.heap.epilog⟩ } ∧
      Outcome a cs gone (some c) { a' with heap := ⟨m, a'.heap.epilog⟩ } cs' ls' ∧
      a'.heap.mem.ChangesOnly m (Payload c) ∧ ∀ j, Payload c j → m.byte j = 0 := by
  have hc := h.swaps.mem_of_new
  have hk := h.sound.consistent
  have hlarge := (hk.chain.bounds hc).2.2
  obtain ⟨m, hm, hmc, hmb⟩ := Memory.fill_spec (m := a'.heap.mem) (i := c.1)
    (fun _ => (0 : UInt8)) (hk.payload_le hc)
  have hin : ∀ j, Memory.InRange c.1 (c.2.size - overhead) j → Payload c j := by
    intro j hj
    simp only [Payload, Memory.InRange, minBlock, overhead] at *
    omega
  refine ⟨m, ?_, h.write_payload hmc hin, hmc.mono hin, fun j hj => ?_⟩
  · unfold clear
    rw [hk.blockSize hc, ok_bind, hk.chain.difference_overhead hc, ok_bind, hm]
    rfl
  · have := hmb (j - c.1) (by simp only [Payload, overhead] at *; omega)
    rwa [show c.1 + (j - c.1) = j by simp only [Payload] at hj; omega] at this

/-- A request for zero bytes in a block, also one that held others before. -/
theorem serveZeroed_spec (hs : a.heap.Sound cs ls) (n : Nat) :
    Answered a cs none (a.serveZeroed n) fun new a' => Supplies n new ∧
      ∀ c ∈ new, ∀ j, Payload c j → a'.heap.mem.byte j = 0 := by
  unfold serveZeroed
  rcases serve_spec hs "calloc" n with ⟨e, a', hrun, hr⟩ | ⟨new, a', cs', ls', hrun, hout, hsup⟩
  · refine .inl ⟨e, a', ?_, hr⟩
    rw [hrun]
    rfl
  · cases new with
    | none =>
      refine .inr ⟨none, a', cs', ls', ?_, hout, hsup, by simp⟩
      rw [hrun]
      rfl
    | some c =>
      obtain ⟨m, hclear, hout', -, hzero⟩ := clear_spec hout
      refine .inr ⟨some c, _, cs', ls', ?_, hout', hsup, fun d hd j hj => ?_⟩
      · rw [hrun, ok_bind]
        show (a'.clear c.1 >>= fun a => _) = _
        rw [hclear]
        rfl
      · obtain rfl := Option.some.inj hd
        exact hzero j hj

/-! ## Operations -/

/-- Verification passes after a step that leaves a sound heap. -/
theorem settle_ok {α : Type} {x : Except Fault (Reply α)} {result : Except Refusal α}
    (hx : x = .ok (result, a)) (hs : a.heap.Sound cs ls) : settle x = .ok (result, a) := by
  have hverify : a.verify = .ok a := by
    unfold verify
    rw [check, hs.check]
    rfl
  unfold settle
  rw [hx]
  show (if a.settings.verifyAlways = true then _ else _) = _
  split
  · rw [hverify]
    rfl
  · rfl

theorem Refused.settle_ok {α : Type} {a' : Allocator} (hr : a.Refused a')
    {x : Except Fault (Reply α)} {result : Except Refusal α} (hx : x = .ok (result, a'))
    (hs : a.heap.Sound cs ls) : settle x = .ok (result, a') :=
  Allocator.settle_ok hx (hr.heap ▸ hs : a'.heap.Sound cs ls)

/-- Verification passes after any step that is refused or granted. -/
theorem Answered.settle {gone : Option Nat} {x : Except Fault (Reply (Option Nat))}
    {P : Option TaggedBlock → Allocator → Prop} (h : Answered a cs gone x P)
    (hs : a.heap.Sound cs ls) : Answered a cs gone (Allocator.settle x) P := by
  rcases h with ⟨e, a', hx, hr⟩ | ⟨new, a', cs', ls', hx, hout, hp⟩
  · exact .inl ⟨e, a', hr.settle_ok hx hs, hr⟩
  · exact .inr ⟨new, a', cs', ls', settle_ok hx hout.sound, hout, hp⟩

theorem allocate_spec (hs : a.heap.Sound cs ls) (n : Nat) :
    Answered a cs none (a.allocate n) fun new _ => Supplies n new :=
  (serve_spec hs "malloc" n).settle hs

theorem allocateZeroed_spec (hs : a.heap.Sound cs ls) (count size : Nat) :
    Answered a cs none (a.allocateZeroed count size) fun new a' => Supplies (count * size) new ∧
      ∀ c ∈ new, ∀ j, Payload c j → a'.heap.mem.byte j = 0 := by
  unfold allocateZeroed
  split
  · exact (serveZeroed_spec hs (count * size)).settle hs
  · exact .inl ⟨_, _, rfl, a.refused_note (e := .sizeOverflow count size) rfl⟩

theorem release_spec (hs : a.heap.Sound cs ls) (hb : b ∈ cs) (ha : b.2.status = .allocated) :
    ∃ a' cs' ls', a.release b.1 = .ok (.ok (), a') ∧ Outcome a cs (some b.1) none a' cs' ls' := by
  obtain ⟨a', cs', ls', hrun, hout⟩ := free_spec hs hb ha "free"
  exact ⟨a', cs', ls', settle_ok hrun hout.sound, hout⟩

theorem resize_none_spec (hs : a.heap.Sound cs ls) (n : Nat) :
    Answered a cs none (a.resize none n) fun new _ => Supplies n new :=
  (change_none_spec hs n).settle hs

theorem resize_some_spec (hs : a.heap.Sound cs ls) (hb : b ∈ cs) (ha : b.2.status = .allocated)
    (n : Nat) : Answered a cs (some b.1) (a.resize (some b.1) n) (Refits a b n) :=
  (change_some_spec hs hb ha n).settle hs

/-- Releasing, or changing the size at, a pointer that fails validation is refused. -/
theorem release_rejected (hs : a.heap.Sound cs ls) (hv : a.settings.safety.validates = true)
    {ptr : Nat} {e : Refusal} (he : a.heap.liveSize ptr = .ok (.error e)) :
    ∃ a', a.release ptr = .ok (.error e, a') ∧ a.Refused a' := by
  have hr := a.refused_note (e := .denied "free" ptr e) rfl
  refine ⟨_, hr.settle_ok ?_ hs, hr⟩
  unfold free
  rw [accept_rejected hv he]
  rfl

theorem resize_rejected (hs : a.heap.Sound cs ls) (hv : a.settings.safety.validates = true)
    {ptr : Nat} {e : Refusal} (he : a.heap.liveSize ptr = .ok (.error e)) (n : Nat) :
    ∃ a', a.resize (some ptr) n = .ok (.error e, a') ∧ a.Refused a' := by
  have hr := a.refused_note (e := .denied "realloc" ptr e) rfl
  refine ⟨_, hr.settle_ok ?_ hs, hr⟩
  rw [change]
  split
  · unfold free
    rw [accept_rejected hv he]
    rfl
  · unfold fit
    rw [accept_rejected hv he]
    rfl

end Allocator

end SegFit
